import Mathlib.Data.Nat.Basic
import Mathlib.Logic.Function.Basic
import Mathlib.Tactic.Common

/-! The table of processes of `fuzzer.c`.

Every process of the fuzzer has its own copy of `ppd`, with a row for each process it
knows. Rows are found by their pid: the first one that holds it. A registration fills a
row field by field, creates a pid file and opens a log, whose names depend on the type of
the process.
-/

set_option autoImplicit false

namespace Cs544.Fuzzer

inductive ProcType where
  | default
  | main
  | wd
  | worker
  | shell
  deriving DecidableEq, Repr

/-- `proc_desc`. `flog` is the name of the log that was opened, or `none` for `NULL`. -/
structure ProcDesc where
  id : Nat
  flog : Option String
  pid : Nat
  ptype : ProcType
  died : Bool
  deriving DecidableEq, Repr

structure Table where
  ppd : Nat → ProcDesc
  procDescCnt : Nat

def workerNum : Nat := 4

def ppdSize : Nat := workerNum + 2

/-- The static table: zeroed, and 0 is `PROC_TYPE_MAIN`. -/
def Table.zeroed : Table := ⟨fun _ => ⟨0, none, 0, .main, false⟩, 0⟩

/-- The fields of a row that `register_new_process` writes first, in its order. -/
inductive Field where
  | pid
  | ptype
  | id
  | died
  deriving DecidableEq, Repr

def Field.next : Field → Option Field
  | pid => some ptype
  | ptype => some id
  | id => some died
  | died => none

structure Registration where
  pid : Nat
  ptype : ProcType
  id : Nat
  replaceDiedPid : Nat
  deriving DecidableEq, Repr

/-! ## The files of a process -/

def ProcType.fileTag : ProcType → String
  | main => "main_"
  | wd => "wd_"
  | worker => "worker_"
  | default | shell => ""

def pidFile (ptype : ProcType) (pid : Nat) : String := "pid/" ++ ptype.fileTag ++ toString pid ++ ".pid"

def logFile (ptype : ProcType) (pid : Nat) : String := "log/" ++ ptype.fileTag ++ toString pid ++ ".log"

/-- A name without the type of the process is never that of a file with one. -/
theorem pidFile_default_ne {ptype : ProcType} (named : ptype.fileTag ≠ "") (p q : Nat) :
    pidFile .default p ≠ pidFile ptype q := by
  intro same
  have underscore : '_' ∈ (pidFile ptype q).toList := by
    cases ptype <;> simp [pidFile, ProcType.fileTag] at named ⊢
  rw [← same] at underscore
  simp [pidFile, ProcType.fileTag, Nat.underscore_not_in_toDigits] at underscore

example : pidFile .default 100 = "pid/100.pid" ∧ pidFile .worker 100 = "pid/worker_100.pid" := by decide

/-! ## Rows -/

namespace Table

def getProcDesc (t : Table) (pid : Nat) : Option Nat :=
  (List.range ppdSize).find? fun i => (t.ppd i).pid = pid

/-- The row that `register_new_process` fills, if it does not return at once. -/
def claim (t : Table) (r : Registration) : Option (Nat × Table) :=
  if r.replaceDiedPid ≠ 0 then (t.getProcDesc r.replaceDiedPid).map fun row => (row, t)
  else if (t.getProcDesc r.pid).isSome then none
  else some (t.procDescCnt, { t with procDescCnt := t.procDescCnt + 1 })

def write (t : Table) (row : Nat) (r : Registration) (field : Field) : Table :=
  let pd := t.ppd row
  let pd :=
    match field with
    | .pid => { pd with pid := r.pid }
    | .ptype => { pd with ptype := r.ptype }
    | .id => { pd with id := r.id }
    | .died => { pd with died := false }
  { t with ppd := Function.update t.ppd row pd }

/-- `pd->flog = fopen(str, "w")`, where the file can be opened. -/
def openLog (t : Table) (row : Nat) (r : Registration) : Table :=
  { t with ppd := Function.update t.ppd row { t.ppd row with flog := some (logFile r.ptype r.pid) } }

/-- `register_new_process` as a whole, for a process that nothing interrupts. -/
def register (t : Table) (r : Registration) : Option Table :=
  match t.claim r with
  | none => none
  | some (row, t) =>
      some (((((t.write row r .pid).write row r .ptype).write row r .id).write row r .died).openLog row r)

def getLogStream (t : Table) (pid : Nat) : Option String :=
  (t.getProcDesc pid).bind fun row => (t.ppd row).flog

def markDied (t : Table) (row : Nat) : Table :=
  { t with ppd := Function.update t.ppd row { t.ppd row with died := true } }

/-- `pd->pid = 0` in `unregister_process`, if there is a row. -/
def unregister (t : Table) (pid : Nat) : Option Table :=
  (t.getProcDesc pid).map fun row =>
    { t with ppd := Function.update t.ppd row { t.ppd row with pid := 0 } }

end Table

/-! ## Looking a row up -/

namespace Table

variable {t : Table} {p row j : Nat} {r : Registration}

theorem getProcDesc_eq_some (found : t.getProcDesc p = some row) : row < ppdSize ∧ (t.ppd row).pid = p := by
  refine ⟨List.mem_range.mp (List.mem_of_find?_eq_some found), ?_⟩
  simpa using List.find?_some found

theorem getProcDesc_eq_none : t.getProcDesc p = none ↔ ∀ j < ppdSize, (t.ppd j).pid ≠ p := by
  simp [getProcDesc, List.find?_eq_none]

theorem le_of_getProcDesc (found : t.getProcDesc p = some row) (holds : (t.ppd j).pid = p) : row ≤ j := by
  by_contra before
  rw [getProcDesc, List.find?_range_eq_some] at found
  have earlier := found.2.2 j (Nat.lt_of_not_le before)
  simp [holds] at earlier

theorem getProcDesc_congr {t' : Table} (same : ∀ j, (t'.ppd j).pid = (t.ppd j).pid) (p : Nat) :
    t'.getProcDesc p = t.getProcDesc p := by
  simp only [getProcDesc, same]

/-- A row is either new or that of the died pid. -/
theorem claim_eq_some {t' : Table} (claimed : t.claim r = some (row, t')) :
    (r.replaceDiedPid = 0 ∧ t.getProcDesc r.pid = none ∧ row = t.procDescCnt ∧
      t' = { t with procDescCnt := t.procDescCnt + 1 }) ∨
    (r.replaceDiedPid ≠ 0 ∧ t.getProcDesc r.replaceDiedPid = some row ∧ t' = t) := by
  unfold claim at claimed
  split_ifs at claimed with replaces known
  · obtain ⟨found, present, same⟩ := Option.map_eq_some_iff.mp claimed
    cases same
    exact .inr ⟨replaces, present, rfl⟩
  · cases claimed
    exact .inl ⟨not_not.mp replaces, by simpa using known, rfl, rfl⟩

/-- Without a row for a new process there is one with its pid already. -/
theorem claim_eq_none (returned : t.claim r = none) :
    (r.replaceDiedPid = 0 ∧ t.getProcDesc r.pid ≠ none) ∨
    (r.replaceDiedPid ≠ 0 ∧ t.getProcDesc r.replaceDiedPid = none) := by
  unfold claim at returned
  split_ifs at returned with replaces known
  · exact .inr ⟨replaces, Option.map_eq_none_iff.mp returned⟩
  · exact .inl ⟨not_not.mp replaces, Option.isSome_iff_ne_none.mp known⟩

theorem markDied_of_ne (other : j ≠ row) : (t.markDied row).ppd j = t.ppd j := Function.update_of_ne other ..

theorem markDied_died (row : Nat) : ((t.markDied row).ppd row).died = true := by simp [markDied]

@[simp] theorem markDied_pid (row j : Nat) : ((t.markDied row).ppd j).pid = (t.ppd j).pid := by
  by_cases here : j = row
  · simp [markDied, here]
  · simp [markDied, here]

@[simp] theorem markDied_flog (row j : Nat) : ((t.markDied row).ppd j).flog = (t.ppd j).flog := by
  by_cases here : j = row
  · simp [markDied, here]
  · simp [markDied, here]

theorem write_of_ne (other : j ≠ row) (field : Field) : (t.write row r field).ppd j = t.ppd j :=
  Function.update_of_ne other ..

@[simp] theorem write_pid_pid : ((t.write row r .pid).ppd row).pid = r.pid := by simp [write]

/-- Only the first assignment changes the pid of a row. -/
theorem write_pid_of_ne {field : Field} (later : field ≠ .pid) (j : Nat) :
    ((t.write row r field).ppd j).pid = (t.ppd j).pid := by
  by_cases here : j = row
  · subst here
    cases field <;> simp [write] at later ⊢
  · rw [write_of_ne here]

@[simp] theorem write_flog (field : Field) (j : Nat) : ((t.write row r field).ppd j).flog = (t.ppd j).flog := by
  by_cases here : j = row
  · subst here
    cases field <;> simp [write]
  · rw [write_of_ne here]

theorem openLog_of_ne (other : j ≠ row) : (t.openLog row r).ppd j = t.ppd j := Function.update_of_ne other ..

@[simp] theorem openLog_flog : ((t.openLog row r).ppd row).flog = some (logFile r.ptype r.pid) := by simp [openLog]

/-- A log changes nothing else in its row. -/
theorem openLog_row (j : Nat) :
    ((t.openLog row r).ppd j).pid = (t.ppd j).pid ∧ ((t.openLog row r).ppd j).ptype = (t.ppd j).ptype ∧
      ((t.openLog row r).ppd j).id = (t.ppd j).id ∧ ((t.openLog row r).ppd j).died = (t.ppd j).died := by
  by_cases here : j = row
  · simp [openLog, here]
  · simp [openLog_of_ne here]

/-! ## Rows in use -/

/-- The rows that are not in use have no pid. -/
def Unused (t : Table) : Prop := ∀ j, t.procDescCnt ≤ j → (t.ppd j).pid = 0

namespace Unused

theorem lt (unused : t.Unused) (present : (t.ppd j).pid ≠ 0) : j < t.procDescCnt := by
  by_contra beyond
  exact present (unused j (Nat.le_of_not_lt beyond))

theorem lt_of_getProcDesc (unused : t.Unused) (process : p ≠ 0) (found : t.getProcDesc p = some row) :
    row < t.procDescCnt := by
  refine unused.lt ?_
  rw [(getProcDesc_eq_some found).2]
  exact process

/-- The row that is claimed is in use from then on, before it is filled. -/
theorem claim {t' : Table} (unused : t.Unused) (claimed : t.claim r = some (row, t')) :
    t'.Unused ∧ row < t'.procDescCnt := by
  obtain ⟨-, -, rfl, rfl⟩ | ⟨replaces, found, rfl⟩ := claim_eq_some claimed
  · exact ⟨fun j beyond => unused j (Nat.le_of_succ_le beyond), Nat.lt_succ_self _⟩
  · exact ⟨unused, unused.lt_of_getProcDesc replaces found⟩

theorem write (unused : t.Unused) (inside : row < t.procDescCnt) (field : Field) :
    (t.write row r field).Unused := by
  intro j beyond
  rw [write_of_ne (Nat.ne_of_gt (Nat.lt_of_lt_of_le inside beyond))]
  exact unused j beyond

end Unused

end Table

end Cs544.Fuzzer
