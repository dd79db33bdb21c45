import Mathlib.Data.List.GetD
import Mathlib.Tactic.Common

/-! The system calls the fuzzer knows, from `syscall_def.h`.

Every call comes with its number of arguments and, for each of them, the types of data
that may be generated for it.
-/

set_option autoImplicit false

namespace Cs544.Fuzzer

/-- The numbers of the system calls, as their names; `other` is any other number. -/
inductive Scid where
  | read | write | open | close | creat | link | execve | chdir | time | mknod | chmod | lchown | lseek
  | nanosleep | utime
  | other (number : Int)
  deriving DecidableEq, Repr

inductive FuzArg where
  | endMark
  | null
  | ptrRand
  | uintFdRopen
  | uintFdWopen
  | uintFdClosed
  | bufGeneric
  | bufRandfill
  | ulongBufsize
  | longintOffset
  | pathFileExist
  | pathFileNonexist
  | pathDirExist
  | openFlags
  | openMode
  | devType
  | filePermMode
  | uid
  | gid
  | timespec
  | utimbuf
  | lseekMode
  | execveArgv
  | execveEnvp
  deriving DecidableEq, Repr

/-- `scall_desc`. A row of `arg_type` is listed up to its `FUZ_ARG_END`. -/
structure ScallDesc where
  scid : Scid
  name : String
  argnum : Nat
  argType : List (List FuzArg)
  deriving DecidableEq, Repr

/-- `MAX_ULONG_BUFSIZE`; the least size is 0. -/
def maxUlongBufsize : Nat := 40960

def anyFd : List FuzArg := [.uintFdRopen, .uintFdWopen, .uintFdClosed]

def anyPath : List FuzArg := [.pathFileExist, .pathFileNonexist, .pathDirExist]

def fuzzerCallSpecList : List ScallDesc :=
  [ ⟨.read, "SYS_read", 3, [anyFd, [.bufGeneric, .null], [.ulongBufsize]]⟩,
    ⟨.write, "SYS_write", 3, [anyFd, [.bufGeneric, .null, .bufRandfill], [.ulongBufsize]]⟩,
    ⟨.open, "SYS_open", 3, [anyPath, [.openFlags], [.openMode]]⟩,
    ⟨.close, "SYS_close", 1, [anyFd, [], []]⟩,
    ⟨.creat, "SYS_creat", 2, [anyPath, [.openMode], []]⟩,
    ⟨.link, "SYS_link", 2, [anyPath, anyPath, []]⟩,
    ⟨.execve, "SYS_execve", 3, [anyPath ++ [.null], [.execveArgv, .null], [.null]]⟩,
    ⟨.chdir, "SYS_chdir", 1, [anyPath, [], []]⟩,
    ⟨.time, "SYS_time", 1, [[.bufGeneric, .null], [], []]⟩,
    ⟨.mknod, "SYS_mknod", 3, [anyPath, [.filePermMode], [.devType]]⟩,
    ⟨.chmod, "SYS_chmod", 2, [anyPath, [.filePermMode], []]⟩,
    ⟨.lchown, "SYS_lchown", 3, [anyPath, [.uid, .gid], [.uid, .gid]]⟩,
    ⟨.lseek, "SYS_lseek", 3, [anyFd, [.longintOffset], [.lseekMode]]⟩,
    ⟨.nanosleep, "SYS_nanosleep", 2, [[.timespec], [.timespec, .null], []]⟩,
    ⟨.utime, "SYS_utime", 2, [anyPath, [.utimbuf], []]⟩ ]

def getScallDesc (scid : Scid) : Option ScallDesc := fuzzerCallSpecList.find? fun desc => desc.scid = scid

/-- The type chosen for argument `k` when `rand()` returns `r`. -/
def ScallDesc.chosen (desc : ScallDesc) (k r : Nat) : FuzArg :=
  let types := desc.argType.getD k []
  types.getD (r % types.length) .endMark

namespace FuzArg

/-- Built through a pointer: the structures of `nanosleep` and `utime`. -/
def isStruct : FuzArg → Bool
  | timespec | utimbuf => true
  | _ => false

/-- Built inside the region: paths, buffers and `argv`. -/
def inPlace : FuzArg → Bool
  | bufGeneric | bufRandfill | pathFileExist | pathFileNonexist | pathDirExist | execveArgv => true
  | _ => false

/-- Passed to the system call as an address, not as a value. -/
def byAddress (t : FuzArg) : Bool := t.inPlace || t.isStruct

/-- `sandbox_syscall_fuzarg` has a case for it. -/
def implemented : FuzArg → Bool
  | endMark | execveEnvp => false
  | _ => true

end FuzArg

/-- Every call has at most three arguments, and only types that are implemented. -/
theorem callSpecList_sound : ∀ desc ∈ fuzzerCallSpecList, 1 ≤ desc.argnum ∧ desc.argnum ≤ 3 ∧
    ∀ k < desc.argnum, desc.argType.getD k [] ≠ [] ∧
      ∀ t ∈ desc.argType.getD k [], t.implemented = true := by
  decide

theorem ScallDesc.chosen_implemented {desc : ScallDesc} {k : Nat} (known : desc ∈ fuzzerCallSpecList)
    (inside : k < desc.argnum) (r : Nat) : (desc.chosen k r).implemented = true := by
  obtain ⟨_, _, rows⟩ := callSpecList_sound desc known
  obtain ⟨nonempty, types⟩ := rows k inside
  apply types
  have index := Nat.mod_lt r (List.length_pos_iff.mpr nonempty)
  unfold chosen
  simp only [List.getD_eq_getElem _ _ index]
  exact List.getElem_mem index

end Cs544.Fuzzer
