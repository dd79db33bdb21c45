import Mathlib.Algebra.Group.Nat.Defs
import Mathlib.Algebra.Ring.Int.Defs
import Mathlib.Logic.Function.Basic
import Cs544.Fuzzer.SyscallDef
import Cs544.Library.Oracle

/-! Generating the arguments of a system call, from `sandbox.c`.

The data of argument `k` is generated into region `k` of the sandbox. The address of a
region is not a number: where it lies is up to the linker. The outcomes of `rand()`, the
pool of file descriptors and the tree of files that `nftw` walks are given; the log is
left out.
-/

set_option autoImplicit false

namespace Cs544.Fuzzer

open Cs544.Library

/-- What a word holds: a number, or the address of a byte of a region. -/
inductive Value where
  | number (n : Int)
  | region (k offset : Nat)
  deriving DecidableEq, Repr

def Value.null : Value := .number 0

/-- What was stored at the start of a region. -/
inductive Content where
  -- An integer or a pointer.
  | word (value : Value)
  -- A string or a buffer of bytes.
  | bytes (data : List Nat)
  -- A vector of pointers, with the two strings generated for it.
  | argv (args : List Value) (first second : List Nat)
  deriving DecidableEq, Repr

def Content.stored : Content → Option Value
  | word value => some value
  | _ => none

/-- The entries of the tree as `nftw` reports them. -/
inductive TFlag where
  | directory
  | file
  | other
  deriving DecidableEq, Repr

/-- What the generator reads. The pool has 110 descriptors; behind it there may be
anything. -/
structure Env where
  fdPool : Nat → Int
  tree : List (List Nat × TFlag)

/-- The regions, and the buffer that the callback of `nftw` writes to. -/
structure Sandbox where
  region : Nat → Content
  callbackPathTmp : List Nat

def Sandbox.store (s : Sandbox) (k : Nat) (content : Content) : Sandbox :=
  { s with region := Function.update s.region k content }

/-! ## Random data -/

abbrev Rand (α : Type) := Draw Nat α

def rand : Rand Nat := draw

def rrand (min max : Nat) : Rand Nat := do
  let r ← rand
  return min + r % (max - min + 1)

def helperGenFuzStr : Nat → Rand (List Nat)
  | 0 => pure []
  | cnt + 1 => do
      let r ← rand
      let c ← if r % 100 < 5 then (do let c ← rand; return c % 256) else rrand 97 122
      let rest ← helperGenFuzStr cnt
      return c :: rest

def randBytes : Nat → Rand (List Nat)
  | 0 => pure []
  | cnt + 1 => do
      let r ← rand
      let rest ← randBytes cnt
      return r % 256 :: rest

def slash : Nat := 47

/-- The loop of `gen_path`, which draws in every round. A chunk's last byte is replaced by
a slash. -/
def genPathLoop (len : Nat) : Nat → List Nat → Rand (List Nat)
  | rounds, dst =>
      if dst.length < len then
        match rounds with
        | 0 => fun _ => none
        | rounds + 1 => do
            let chunkLen ← rand
            let str ← helperGenFuzStr (chunkLen % 128)
            genPathLoop len rounds ((dst ++ str).dropLast ++ [slash])
      else pure dst

/-- `callback_get_path`: what it returns and leaves in the buffer. -/
def callbackGetPath (fuzArg : FuzArg) (fpath : List Nat) (tflag : TFlag) (tmp : List Nat) :
    Rand (Int × List Nat) := do
  let r ← rand
  if r % 50 < 2 then
    if fuzArg = .pathDirExist then
      return if tflag = .directory then (1, fpath) else (0, tmp)
    else if fuzArg = .pathFileExist then
      return if tflag = .file then (1, fpath) else (0, tmp)
    else return (1, tmp)
  else return (0, tmp)

/-- `nftw`, which stops at the first entry whose callback does not return 0. -/
def nftw (fuzArg : FuzArg) : List (List Nat × TFlag) → List Nat → Rand (List Nat)
  | [], tmp => pure tmp
  | (fpath, tflag) :: rest, tmp => do
      let (ret, tmp) ← callbackGetPath fuzArg fpath tflag tmp
      if ret = 0 then nftw fuzArg rest tmp else return tmp

/-- `gen_path`: the path and the buffer of the callback. -/
def genPath (env : Env) (fuzArg : FuzArg) (tmp : List Nat) : Rand (List Nat × List Nat) :=
  if fuzArg = .pathFileNonexist then do
    let len ← rand
    let outcomes ← get
    let path ← genPathLoop (len % 1024) outcomes.length [slash]
    return (path, tmp)
  else do
    let tmp ← nftw fuzArg env.tree tmp
    return (tmp, tmp)

/-- A value as it is stored in an `int`. -/
def int32 (n : Int) : Int := n.bmod (2 ^ 32)

/-- `makedev` of two `unsigned int`. -/
def makedev (major minor : Nat) : Nat :=
  minor % 256 ||| (major % 4096) <<< 8 ||| (minor / 256 * 256) <<< 12 ||| (major / 4096 * 4096) <<< 32

/-- `FUZ_ARG_OPEN_FLAGS`: one of the access modes, with any other bits. -/
def openFlags : Rand Nat := do
  let first ← rand
  let mode ←
    if first % 2 ≠ 0 then pure 0
    else do
      let second ← rand
      return if second % 2 ≠ 0 then 1 else 2
  let bits ← rand
  return mode ||| bits

/-- `FUZ_ARG_LSEEK_MODE`: `SEEK_SET`, `SEEK_CUR`, `SEEK_END` or anything. -/
def lseekMode : Rand Nat := do
  let first ← rand
  if first % 2 ≠ 0 then return 0
  let second ← rand
  if second % 2 ≠ 0 then return 1
  let third ← rand
  if third % 2 ≠ 0 then return 2
  rand

/-! ## One argument -/

inductive Fault where
  | segv
  deriving DecidableEq, Repr

def fuzPath (env : Env) (s : Sandbox) (argno : Nat) (t : FuzArg) : Rand (Except Fault (Int × Sandbox)) := do
  let (path, tmp) ← genPath env t s.callbackPathTmp
  return .ok (0, { s.store argno (.bytes path) with callbackPathTmp := tmp })

/-- `sandbox_syscall_fuzarg`: what it returns, with the sandbox it leaves. -/
def sandboxSyscallFuzarg (env : Env) (s : Sandbox) (argno : Nat) : FuzArg → Rand (Except Fault (Int × Sandbox))
  | .endMark => return .ok (0, s)
  | .null => return .ok (0, s.store argno (.word .null))
  | .bufGeneric => return .ok (0, s.store argno (.word (.region argno 0)))
  | .ptrRand => do
      let r ← rand
      return .ok (0, s.store argno (.word (.number r)))
  | .bufRandfill => do
      let data ← randBytes maxUlongBufsize
      return .ok (0, s.store argno (.bytes data))
  | .ulongBufsize => do
      let size ← rrand 0 maxUlongBufsize
      return .ok (0, s.store argno (.word (.number size)))
  -- The three cases of descriptors fall through, so the last one decides.
  | .uintFdRopen => do
      let _ ← rrand 0 50
      let _ ← rrand 50 100
      let i ← rrand 100 110
      return .ok (0, s.store argno (.word (.number (env.fdPool i))))
  | .uintFdWopen => do
      let _ ← rrand 50 100
      let i ← rrand 100 110
      return .ok (0, s.store argno (.word (.number (env.fdPool i))))
  | .uintFdClosed => do
      let i ← rrand 100 110
      return .ok (0, s.store argno (.word (.number (env.fdPool i))))
  | .pathFileExist => fuzPath env s argno .pathFileExist
  | .pathFileNonexist => fuzPath env s argno .pathFileNonexist
  | .pathDirExist => fuzPath env s argno .pathDirExist
  | .openFlags => do
      let i ← openFlags
      return .ok (0, s.store argno (.word (.number i)))
  | .openMode | .filePermMode => do
      let i ← rand
      return .ok (0, s.store argno (.word (.number i)))
  | .devType => do
      let i ← rand
      let j ← rand
      return .ok (0, s.store argno (.word (.number (makedev i j))))
  | .uid | .gid => do
      let i ← rand
      let j ← rand
      return .ok (0, s.store argno (.word (.number ((2 * i + j) % 2 ^ 32))))
  | .longintOffset => do
      let i ← rand
      let j ← rand
      return .ok (0, s.store argno (.word (.number (int32 (i * 2 ^ 16) + j))))
  | .lseekMode => do
      let i ← lseekMode
      return .ok (0, s.store argno (.word (.number i)))
  -- The first character of the region is taken for a pointer, and is written through.
  | .timespec => return .error .segv
  | .utimbuf => return .error .segv
  | .execveArgv => do
      let first ← helperGenFuzStr 512
      let second ← helperGenFuzStr 512
      let args : List Value := [.region 0 0, .region argno 10000, .region argno 20000, .null]
      return .ok (0, s.store argno (.argv args first second))
  | .execveEnvp => return .ok (-1, s)

/-! ## The call -/

/-- The outcomes of `rand()` for one argument: the one its type is chosen by, and those
its data is made of. -/
structure Draws where
  choice : Nat
  values : List Nat

/-- `sandbox_syscall_fuzargs`: the arguments still to be generated, one after the other. -/
def fuzargs (env : Env) (desc : ScallDesc) (outcomes : Nat → Draws) :
    List Nat → Sandbox → Option (Except Fault Sandbox)
  | [], s => some (.ok s)
  | k :: rest, s =>
      match sandboxSyscallFuzarg env s k (desc.chosen k (outcomes k).choice) (outcomes k).values with
      | none => none
      | some (.error fault, _) => some (.error fault)
      | some (.ok (_, s), _) => fuzargs env desc outcomes rest s

def sandboxSyscallFuzargs (env : Env) (desc : ScallDesc) (outcomes : Nat → Draws) (s : Sandbox) :
    Option (Except Fault Sandbox) := fuzargs env desc outcomes (List.range desc.argnum) s

/-- How far a run got: no such call, a fault, no call for that number of arguments, or
the call with what was passed to it. -/
inductive Result where
  | unsupported
  | fault
  | notCalled
  | called (args : List Value) (sandbox : Sandbox)

/-- `sandbox_syscall_run`, up to the call. It has no result if the outcomes of `rand()`
do not suffice. -/
def sandboxSyscallRun (env : Env) (s : Sandbox) (scid : Scid) (outcomes : Nat → Draws) : Option Result :=
  match getScallDesc scid with
  | none => some .unsupported
  | some desc =>
      match sandboxSyscallFuzargs env desc outcomes s with
      | none => none
      | some (.error _) => some .fault
      | some (.ok s) =>
          match desc.argnum with
          | 1 => some (.called [.region 0 0] s)
          | 2 => some (.called [.region 0 0, .region 1 0] s)
          | 3 => some (.called [.region 0 0, .region 1 0, .region 2 0] s)
          | _ => some .notCalled

/-! ## What should be passed -/

/-- What the system call should get for argument `k`: the address of its region, or the
word stored there. -/
def generated (t : FuzArg) (k : Nat) (content : Content) : Option Value :=
  if t.byAddress then some (.region k 0) else content.stored

/-- The system call was made, and every argument is the one that was generated. -/
def Delivered (desc : ScallDesc) (outcomes : Nat → Draws) (r : Result) : Prop :=
  ∃ args s, r = .called args s ∧ ∀ k < desc.argnum,
    args[k]? = generated (desc.chosen k (outcomes k).choice) k (s.region k)

/-- What generating an argument leaves: a fault for the structures, a number for what is
passed by value, and every other region as it was. -/
def Leaves (s : Sandbox) (k : Nat) (t : FuzArg) : Except Fault (Int × Sandbox) → Prop
  | .error _ => t.isStruct = true
  | .ok (_, s') => t.isStruct = false ∧
      (t.byAddress = false → t.implemented = true → ∃ n, s'.region k = .word (.number n)) ∧
      ∀ j, j ≠ k → s'.region j = s.region j

variable {env : Env} {s s' : Sandbox} {k : Nat} {t : FuzArg} {desc : ScallDesc} {outcomes : Nat → Draws}
  {todo : List Nat}

theorem store_other (content : Content) (j : Nat) (other : j ≠ k) :
    (s.store k content).region j = s.region j := Function.update_of_ne other ..

theorem leaves_number (n : Int) (value : t.isStruct = false) :
    Leaves s k t (.ok (0, s.store k (.word (.number n)))) :=
  ⟨value, fun _ _ => ⟨n, Function.update_self ..⟩, store_other _⟩

theorem leaves_content (content : Content) (tmp : List Nat) (inPlace : t.inPlace = true) (value : t.isStruct = false) :
    Leaves s k t (.ok (0, { s.store k content with callbackPathTmp := tmp })) := by
  refine ⟨value, fun byValue => ?_, store_other _⟩
  simp [FuzArg.byAddress, inPlace] at byValue

theorem leaves_same (ret : Int) (value : t.isStruct = false) (missing : t.implemented = false) :
    Leaves s k t (.ok (ret, s)) := by
  refine ⟨value, fun _ implemented => ?_, fun _ _ => rfl⟩
  rw [missing] at implemented
  cases implemented

theorem ensures_fuzPath (inPlace : t.inPlace = true) (value : t.isStruct = false) :
    Ensures (fuzPath env s k t) (Leaves s k t) := by
  apply Ensures.bind
  intro path
  exact Ensures.pure (leaves_content _ _ inPlace value)

theorem ensures_fuzarg (env : Env) (s : Sandbox) (k : Nat) (t : FuzArg) :
    Ensures (sandboxSyscallFuzarg env s k t) (Leaves s k t) := by
  cases t with
  | endMark => exact Ensures.pure (leaves_same 0 rfl rfl)
  | execveEnvp => exact Ensures.pure (leaves_same (-1) rfl rfl)
  | null => exact Ensures.pure (leaves_number 0 rfl)
  | timespec => exact Ensures.pure rfl
  | utimbuf => exact Ensures.pure rfl
  | bufGeneric => exact Ensures.pure (leaves_content _ s.callbackPathTmp rfl rfl)
  | pathFileExist => exact ensures_fuzPath rfl rfl
  | pathFileNonexist => exact ensures_fuzPath rfl rfl
  | pathDirExist => exact ensures_fuzPath rfl rfl
  | bufRandfill =>
    apply Ensures.bind
    intro data
    exact Ensures.pure (leaves_content _ s.callbackPathTmp rfl rfl)
  | execveArgv =>
    apply Ensures.bind
    intro first
    apply Ensures.bind
    intro second
    exact Ensures.pure (leaves_content _ s.callbackPathTmp rfl rfl)
  | ptrRand | ulongBufsize | openFlags | openMode | filePermMode | lseekMode | uintFdClosed =>
    apply Ensures.bind
    intro value
    exact Ensures.pure (leaves_number _ rfl)
  | uintFdWopen | devType | uid | gid | longintOffset =>
    apply Ensures.bind
    intro first
    apply Ensures.bind
    intro second
    exact Ensures.pure (leaves_number _ rfl)
  | uintFdRopen =>
    apply Ensures.bind
    intro first
    apply Ensures.bind
    intro second
    apply Ensures.bind
    intro third
    exact Ensures.pure (leaves_number _ rfl)

/-- What generating all arguments of a list leaves. -/
def LeavesAll (desc : ScallDesc) (outcomes : Nat → Draws) (todo : List Nat) (s : Sandbox) :
    Except Fault Sandbox → Prop
  | .error _ => ∃ k ∈ todo, (desc.chosen k (outcomes k).choice).isStruct = true
  | .ok s' =>
      (∀ k ∈ todo, (desc.chosen k (outcomes k).choice).isStruct = false ∧
        ((desc.chosen k (outcomes k).choice).byAddress = false →
          (desc.chosen k (outcomes k).choice).implemented = true → ∃ n, s'.region k = .word (.number n))) ∧
      ∀ j, j ∉ todo → s'.region j = s.region j

theorem fuzargs_leaves {ran : Except Fault Sandbox} (distinct : todo.Nodup)
    (generates : fuzargs env desc outcomes todo s = some ran) : LeavesAll desc outcomes todo s ran := by
  induction todo generalizing s with
  | nil =>
    cases generates
    exact ⟨by simp, fun _ _ => rfl⟩
  | cons k rest ih =>
    obtain ⟨fresh, distinct⟩ := List.nodup_cons.mp distinct
    rw [fuzargs] at generates
    have ensured := ensures_fuzarg env s k (desc.chosen k (outcomes k).choice) (outcomes k).values
    split at generates
    · cases generates
    next fault _ first =>
      cases generates
      exact ⟨k, List.mem_cons_self, ensured _ _ first⟩
    next s₁ _ first =>
      obtain ⟨value, number, others⟩ := ensured _ _ first
      have later := ih distinct generates
      cases ran with
      | error fault =>
        obtain ⟨j, member, struct⟩ := later
        exact ⟨j, List.mem_cons_of_mem k member, struct⟩
      | ok s' =>
        obtain ⟨written, untouched⟩ := later
        refine ⟨fun j member => ?_, fun j outside => ?_⟩
        · rcases List.mem_cons.mp member with rfl | member
          · refine ⟨value, fun byValue implemented => ?_⟩
            rw [untouched j fresh]
            exact number byValue implemented
          · exact written j member
        · rw [untouched j (List.not_mem_of_not_mem_cons outside)]
          exact others j (List.ne_of_not_mem_cons outside)

theorem run_cases {scid : Scid} (found : getScallDesc scid = some desc) {r : Result}
    (ran : sandboxSyscallRun env s scid outcomes = some r) :
    (r = .fault ∧ ∃ k < desc.argnum, (desc.chosen k (outcomes k).choice).isStruct = true) ∨
    ∃ s', r = .called ((List.range desc.argnum).map fun k => .region k 0) s' ∧
      LeavesAll desc outcomes (List.range desc.argnum) s (.ok s') := by
  have known : desc ∈ fuzzerCallSpecList := List.mem_of_find?_eq_some found
  obtain ⟨least, most, _⟩ := callSpecList_sound desc known
  simp only [sandboxSyscallRun, found] at ran
  split at ran
  · cases ran
  next fault generates =>
    cases ran
    obtain ⟨k, member, struct⟩ := fuzargs_leaves List.nodup_range generates
    exact .inl ⟨rfl, k, List.mem_range.mp member, struct⟩
  next s' generates =>
    right
    have leaves := fuzargs_leaves List.nodup_range generates
    refine ⟨s', ?_, leaves⟩
    obtain one | two | three : desc.argnum = 1 ∨ desc.argnum = 2 ∨ desc.argnum = 3 := by omega
    · rw [one] at ran ⊢
      cases ran
      rfl
    · rw [two] at ran ⊢
      cases ran
      rfl
    · rw [three] at ran ⊢
      cases ran
      rfl

/-- The system call gets what was generated exactly when every argument is of a type
that is built inside its region. Every argument is passed as the address of its region,
so numbers, `NULL` and random pointers do not arrive, and structures fault before the
call. -/
theorem sandbox_delivers_arguments (env : Env) (s : Sandbox) (scid : Scid) (desc : ScallDesc)
    (found : getScallDesc scid = some desc) (outcomes : Nat → Draws) (r : Result)
    (ran : sandboxSyscallRun env s scid outcomes = some r) :
    Delivered desc outcomes r ↔ ∀ k < desc.argnum, (desc.chosen k (outcomes k).choice).inPlace = true := by
  have known : desc ∈ fuzzerCallSpecList := List.mem_of_find?_eq_some found
  rcases run_cases found ran with ⟨rfl, k, inside, struct⟩ | ⟨s', rfl, leaves, _⟩
  · constructor
    · rintro ⟨args, s', called, _⟩
      cases called
    · intro inPlace
      have here := inPlace k inside
      generalize desc.chosen k (outcomes k).choice = t at here struct
      cases t <;> simp [FuzArg.inPlace, FuzArg.isStruct] at here struct
  · have passed (k : Nat) (inside : k < desc.argnum) :
        ((List.range desc.argnum).map fun k => Value.region k 0)[k]? = some (.region k 0) := by
      simp [inside]
    constructor
    · rintro ⟨args, s'', called, delivered⟩ k inside
      cases called
      have arrives := delivered k inside
      obtain ⟨value, number⟩ := leaves k (List.mem_range.mpr inside)
      rw [passed k inside, generated] at arrives
      by_contra notInPlace
      have byValue : (desc.chosen k (outcomes k).choice).byAddress = false := by
        rw [FuzArg.byAddress, value, Bool.or_false]
        exact Bool.eq_false_iff.mpr notInPlace
      obtain ⟨n, stored⟩ := number byValue (desc.chosen_implemented known inside _)
      rw [byValue, stored] at arrives
      cases arrives
    · intro inPlace
      refine ⟨_, s', rfl, fun k inside => ?_⟩
      have byAddress : (desc.chosen k (outcomes k).choice).byAddress = true := by
        simp [FuzArg.byAddress, inPlace k inside]
      rw [passed k inside, generated, byAddress]
      rfl

def bareEnv : Env := ⟨fun _ => 7, []⟩

def bareSandbox : Sandbox := ⟨fun _ => .bytes [], []⟩

/-- `link` with two paths to nothing gets both. -/
theorem sandbox_delivers_arguments_link :
    ∃ desc r, getScallDesc .link = some desc ∧
      sandboxSyscallRun bareEnv bareSandbox .link (fun _ => ⟨1, [0]⟩) = some r ∧
      Delivered desc (fun _ => ⟨1, [0]⟩) r := by
  refine ⟨_, _, rfl, rfl, ?_⟩
  exact (sandbox_delivers_arguments bareEnv bareSandbox .link _ rfl _ _ rfl).mpr (by decide)

/-- `close` of a descriptor gets the address of the region that holds the descriptor. -/
theorem sandbox_closes_address :
    ∃ desc r, getScallDesc .close = some desc ∧
      sandboxSyscallRun bareEnv bareSandbox .close (fun _ => ⟨2, [0]⟩) = some r ∧
      ¬ Delivered desc (fun _ => ⟨2, [0]⟩) r := by
  refine ⟨_, _, rfl, rfl, ?_⟩
  rintro ⟨args, s, called, delivered⟩
  cases called
  have arrives := delivered 0 (by decide)
  revert arrives
  decide

end Cs544.Fuzzer
