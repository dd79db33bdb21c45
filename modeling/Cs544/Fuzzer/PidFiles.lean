import Cs544.Fuzzer.Supervisor

/-! The pid files that are left behind.

Every caller of `unregister_process` passes `PROC_TYPE_DEF`, so the name it removes has
no type in it, and a file that was created has one. A registration that replaces a died
pid removes nothing at all. So no pid file ever disappears.
-/

set_option autoImplicit false

namespace Cs544.Fuzzer

open Cs544.Library

/-- The file of a process that is unregistered is gone, and so is that of a died pid whose
row has been replaced. -/
def PidFilesMatch (s : State) : Prop :=
  (∀ q ∈ s.unregistered, ∀ t, (t, q) ∈ s.created → pidFile t q.pid ∉ s.files) ∧
  ∀ p ∈ s.replaced, ∀ t birth, (t, ⟨p, birth⟩) ∈ s.created → pidFile t p ∉ s.files

def Pc.registration : Pc → Option Registration
  | write _ _ r _ | create _ r _ => some r
  | _ => none

theorem fileTag_ne {t : ProcType} (registered : t = .main ∨ t = .wd ∨ t = .worker) : t.fileTag ≠ "" := by
  rcases registered with rfl | rfl | rfl <;> decide

@[simp] theorem Return.pc_registration (next : Return) : next.pc.registration = none := by
  cases next with
  | afterWorker id =>
    rw [Return.pc]
    split_ifs <;> rfl
  | _ => rfl

namespace State

def Created (s : State) (p : Nat) : Prop := ∃ t birth, (t, ⟨p, birth⟩) ∈ s.created

/-- The file of the registration will have a type in its name, and the pid it replaces
has a file. -/
def Sound (s : State) (r : Registration) : Prop :=
  r.ptype.fileTag ≠ "" ∧ (r.replaceDiedPid = 0 ∨ s.Created r.replaceDiedPid)

end State

/-- Every file that was created is there, every pid of main's table has one or gets one
now, and only such pids are replaced. -/
structure Filed (s : State) : Prop where
  files : ∀ t q, (t, q) ∈ s.created → t.fileTag ≠ "" ∧ pidFile t q.pid ∈ s.files
  rows : ∀ j, (s.table.ppd j).pid = 0 ∨ s.Created (s.table.ppd j).pid ∨
    ∃ r ∈ s.pc.registration, r.pid = (s.table.ppd j).pid
  calls : ∀ r ∈ s.pc.registration, s.Sound r
  children : ∀ p c, s.child p = some c → s.Sound c.registration
  replaced : ∀ p ∈ s.replaced, s.Created p

variable {s s' : State} {p row : Nat} {r : Registration} {next : Return} {field : Field}

theorem filed_initial (mainPid : Nat) (files : Finset String) : Filed (initial mainPid files) where
  files t q created := by cases created
  rows j := .inl rfl
  calls r called := by cases called
  children p c present := by cases present
  replaced p replaced := by cases replaced

namespace Filed

/-- The rule is met only where it asks for nothing. -/
theorem match_iff (filed : Filed s) :
    PidFilesMatch s ↔ (∀ q ∈ s.unregistered, ∀ t, (t, q) ∉ s.created) ∧ s.replaced = [] := by
  constructor
  · rintro ⟨unregistered, replaced⟩
    constructor
    · intro q gone t created
      exact unregistered q gone t created (filed.files t q created).2
    · refine List.eq_nil_iff_forall_not_mem.mpr fun p died => ?_
      obtain ⟨t, birth, created⟩ := filed.replaced p died
      exact replaced p died t birth created (filed.files t _ created).2
  · rintro ⟨unregistered, replaced⟩
    constructor
    · exact fun q gone t created => absurd created (unregistered q gone t)
    · rw [replaced]
      exact fun p died => absurd died List.not_mem_nil

/-! ## Steps -/

theorem row_created (filed : Filed s) (quiet : s.pc.registration = none) (j : Nat) :
    (s.table.ppd j).pid = 0 ∨ s.Created (s.table.ppd j).pid := by
  rcases filed.rows j with zero | created | ⟨r, called, _⟩
  · exact .inl zero
  · exact .inr created
  · rw [quiet] at called
    cases called

theorem goto (filed : Filed s) (quiet : s.pc.registration = none) {pc : Pc} (silent : pc.registration = none)
    {installed started : Bool} : Filed { s with pc, installed, started } where
  files := filed.files
  rows j := (filed.row_created quiet j).imp_right .inl
  calls r called := by
    change r ∈ pc.registration at called
    rw [silent] at called
    cases called
  children := filed.children
  replaced := filed.replaced

theorem spawn (filed : Filed s) (sound : s.Sound r) : Filed (s.spawn r) := by
  refine ⟨filed.files, filed.rows, filed.calls, fun p c present => ?_, filed.replaced⟩
  by_cases same : p = r.pid
  · rw [same] at present
    change Function.update s.child r.pid _ r.pid = some c at present
    rw [Function.update_self] at present
    cases present
    exact sound
  · change Function.update s.child r.pid _ p = some c at present
    rw [Function.update_of_ne same] at present
    exact filed.children p c present

theorem call (filed : Filed s) (quiet : s.pc.registration = none) (sound : s.Sound r) : Filed (s.call r next) := by
  unfold State.call
  split
  next row table claimed =>
    have ppd : table.ppd = s.table.ppd := by
      rcases Table.claim_eq_some claimed with ⟨_, _, _, rfl⟩ | ⟨_, _, rfl⟩ <;> rfl
    refine ⟨filed.files, fun j => ?_, ?_, filed.children, filed.replaced⟩
    · simp only [ppd]
      exact (filed.row_created quiet j).imp_right .inl
    · intro r' called
      cases called
      exact sound
  next =>
    split_ifs
    · exact filed.goto quiet next.pc_registration
    · exact filed.goto quiet rfl

/-- An assignment puts no other pid into the table than the one being registered. -/
theorem write (filed : Filed s) (called : s.pc.registration = some r) {pc : Pc} (stays : pc.registration = some r)
    {owner : Nat → Nat} : Filed { s with table := s.table.write row r field, owner, pc } := by
  refine ⟨filed.files, fun j => ?_, ?_, filed.children, filed.replaced⟩
  · have kept : (s.table.ppd j).pid = 0 ∨ s.Created (s.table.ppd j).pid ∨
        ∃ r ∈ pc.registration, r.pid = (s.table.ppd j).pid := by
      rw [stays, ← called]
      exact filed.rows j
    -- Only the assignment of the pid, in this row, changes a pid.
    by_cases first : field = .pid ∧ j = row
    · obtain ⟨rfl, rfl⟩ := first
      exact .inr (.inr ⟨r, stays, Table.write_pid_pid.symm⟩)
    · have pid : ((s.table.write row r field).ppd j).pid = (s.table.ppd j).pid := by
        by_cases here : j = row
        · exact Table.write_pid_of_ne (fun pid => first ⟨pid, here⟩) j
        · rw [Table.write_of_ne here]
      simp only [pid]
      exact kept
  · intro r' called'
    apply filed.calls r'
    rw [called, ← stays]
    exact called'

theorem created_createFile (known : s.Created p) : (s.createFile r).Created p := by
  obtain ⟨t, birth, created⟩ := known
  exact ⟨t, birth, List.mem_cons_of_mem _ created⟩

theorem sound_createFile {r' : Registration} (sound : s.Sound r') : (s.createFile r).Sound r' :=
  ⟨sound.1, sound.2.imp_right created_createFile⟩

theorem createFile (filed : Filed s) (sound : s.Sound r) : Filed (s.createFile r) where
  files t q created := by
    rcases List.mem_cons.mp created with same | created
    · cases same
      exact ⟨sound.1, Finset.mem_insert_self ..⟩
    · obtain ⟨named, present⟩ := filed.files t q created
      exact ⟨named, Finset.mem_insert_of_mem present⟩
  rows j := (filed.rows j).imp_right fun known => known.imp_left created_createFile
  calls r' called := sound_createFile (filed.calls r' called)
  children p c present := sound_createFile (filed.children p c present)
  replaced p died := by
    apply created_createFile
    change p ∈ (if r.replaceDiedPid = 0 then s.replaced else r.replaceDiedPid :: s.replaced) at died
    split_ifs at died with new
    · exact filed.replaced p died
    · rcases List.mem_cons.mp died with rfl | died
      · exact sound.2.resolve_left new
      · exact filed.replaced p died

theorem creates (filed : Filed s) (called : s.pc.registration = some r) :
    Filed { s.createFile r with table := s.table.openLog row r, pc := next.pc } := by
  have created := filed.createFile (filed.calls r called)
  refine ⟨created.files, fun j => ?_, ?_, created.children, created.replaced⟩
  · simp only [Table.openLog_row]
    rcases created.rows j with zero | known | ⟨r', called', pid⟩
    · exact .inl zero
    · exact .inr (.inl known)
    · change r' ∈ s.pc.registration at called'
      rw [called] at called'
      cases called'
      change r.pid = (s.table.ppd j).pid at pid
      rw [← pid]
      exact .inr (.inl ⟨r.ptype, s.births r.pid, List.mem_cons_self ..⟩)
  · intro r' called'
    change r' ∈ next.pc.registration at called'
    rw [Return.pc_registration] at called'
    cases called'

theorem mainStep (filed : Filed s) {fork : Option Nat} (effect : MainEffect s fork s') : Filed s' := by
  have worker : ProcType.worker.fileTag ≠ "" := fileTag_ne (.inr (.inr rfl))
  cases effect with
  | forkFails at' | watchdogFails at' | reforkFails at' => exact filed.goto (by rw [at']; rfl) rfl
  | @forks id p at' free =>
    have quiet : s.pc.registration = none := by rw [at']; rfl
    exact (filed.spawn (r := ⟨p, .worker, id, 0⟩) ⟨worker, .inl rfl⟩).goto quiet rfl
  | installs at' => exact filed.goto (by rw [at']; rfl) rfl
  | registersMain at' => exact filed.call (by rw [at']; rfl) ⟨fileTag_ne (.inl rfl), .inl rfl⟩
  | registersWorker at' => exact filed.call (by rw [at']; rfl) ⟨worker, .inl rfl⟩
  | @forksWatchdog p at' free =>
    have quiet : s.pc.registration = none := by rw [at']; rfl
    exact (filed.spawn (r := ⟨p, .wd, workerNum, 0⟩) ⟨fileTag_ne (.inr (.inl rfl)), .inl rfl⟩).goto quiet rfl
  | finds at' inside worker present died => exact filed.goto (by rw [at']; rfl) rfl
  | passes at' inside other => exact filed.goto (by rw [at']; rfl) rfl
  | restarts at' beyond => exact filed.goto (by rw [at']; rfl) rfl
  | @reforks i p at' free =>
    have quiet : s.pc.registration = none := by rw [at']; rfl
    exact (filed.spawn ⟨worker, filed.row_created quiet i⟩).goto quiet rfl
  | @replaces i p fork at' =>
    have quiet : s.pc.registration = none := by rw [at']; rfl
    exact filed.call quiet ⟨worker, filed.row_created quiet i⟩
  | @replacesSelf i fork at' =>
    have quiet : s.pc.registration = none := by rw [at']; rfl
    exact filed.call quiet ⟨worker, filed.row_created quiet i⟩
  | @writes field row r next fork at' => exact filed.write (by rw [at']; rfl) (by cases field <;> rfl)
  | creates at' => exact filed.creates (by rw [at']; rfl)

theorem childChanges (filed : Filed s) {c : Child} (present : s.child p = some c) (c' : Child)
    (same : c'.registration = c.registration) {unregistered : List Process} :
    Filed { s with child := Function.update s.child p (some c'), unregistered } := by
  refine ⟨filed.files, filed.rows, filed.calls, fun q d child => ?_, filed.replaced⟩
  by_cases here : q = p
  · rw [here] at child
    change Function.update s.child p (some c') p = some d at child
    rw [Function.update_self] at child
    cases child
    rw [same]
    exact filed.children p c present
  · change Function.update s.child p (some c') q = some d at child
    rw [Function.update_of_ne here] at child
    exact filed.children q d child

/-- What `unregister_process` removes is no file that was created. -/
theorem removes (filed : Filed s) (q : Nat) : Filed { s with files := s.files.erase (pidFile .default q) } where
  files t process created := by
    obtain ⟨named, present⟩ := filed.files t process created
    exact ⟨named, Finset.mem_erase.mpr ⟨(pidFile_default_ne named q process.pid).symm, present⟩⟩
  rows := filed.rows
  calls := filed.calls
  children := filed.children
  replaced := filed.replaced

theorem unregisterStep (filed : Filed s) {c : Child} (present : s.child p = some c) :
    Filed (unregisterStep s p c) := by
  unfold Fuzzer.unregisterStep
  split
  next table _ => exact (filed.removes p).childChanges present { c with table } rfl
  next => exact ⟨filed.files, filed.rows, filed.calls, filed.children, filed.replaced⟩

theorem terminated (filed : Filed s) : Filed (s.terminated p) := by
  refine ⟨filed.files, filed.rows, filed.calls, fun q c child => ?_, filed.replaced⟩
  change Function.update s.child p none q = some c at child
  by_cases here : q = p
  · rw [here, Function.update_self] at child
    cases child
  · rw [Function.update_of_ne here] at child
    exact filed.children q c child

theorem childStep (filed : Filed s) {c : Child} (present : s.child p = some c) : Filed (childStep s p c) := by
  unfold Fuzzer.childStep
  split
  next table _ =>
    exact (filed.createFile (filed.children p c present)).childChanges present { c with table, running := true } rfl
  next => exact filed.childChanges present { c with running := true } rfl

theorem marks (filed : Filed s) (row : Nat) (handler : Option Handler) :
    Filed { s with table := s.table.markDied row, handler } := by
  refine ⟨filed.files, fun j => ?_, filed.calls, filed.children, filed.replaced⟩
  simp only [Table.markDied_pid]
  exact filed.rows j

theorem preserved (filed : Filed s) {a : Action} (edge : Step s a s') : Filed s' := by
  -- Signals and the handler change neither a file nor a record.
  have other {pending : Bool} {zombies : Finset Nat} {handler : Option Handler} :
      Filed { s with pending, zombies, handler } :=
    ⟨filed.files, filed.rows, filed.calls, filed.children, filed.replaced⟩
  cases step_effect edge with
  | main idle effect => exact filed.mainStep effect
  | delivers pending idle running => exact other
  | ends waiting nobody => exact other
  | reaps waiting zombie => exact other
  | givesUp looking unknown => exact other
  | marks looking found => exact filed.marks _ _
  | exits live running => exact filed.terminated
  | child present new => exact filed.childStep present
  | hangup present registered => exact filed.unregisterStep present
  | terminate present registered running => exact (filed.unregisterStep present).terminated

end Filed

/-! ## Whole runs -/

theorem filed_of_run {mainPid : Nat} {files : Finset String} {actions : List Action}
    (run : Run Step (initial mainPid files) actions s) : Filed s :=
  run.invariant Filed (fun filed edge => filed.preserved edge) (filed_initial mainPid files)

/-- In every state of every run, the pid files match the registrations exactly if nobody
with a pid file has been unregistered and no row has been replaced. -/
theorem pid_files_match_iff (mainPid : Nat) (files : Finset String) (actions : List Action) (s : State)
    (run : Run Step (initial mainPid files) actions s) :
    PidFilesMatch s ↔ (∀ q ∈ s.unregistered, ∀ t, (t, q) ∉ s.created) ∧ s.replaced = [] :=
  (filed_of_run run).match_iff

theorem pid_files_match_running :
    ∃ s, Run Step (initial 1 ∅) (startWorker 0 100 ++ [.child 100]) s ∧
      (.worker, ⟨100, 1⟩) ∈ s.created ∧ PidFilesMatch s := by
  have quiet : (execute step (initial 1 ∅) (startWorker 0 100 ++ [.child 100])).map
      (fun s => decide ((.worker, ⟨100, 1⟩) ∈ s.created ∧ s.unregistered = [] ∧ s.replaced = [])) = some true := by
    decide +kernel
  obtain ⟨s, result, records⟩ := Option.map_eq_some_iff.mp quiet
  obtain ⟨created, unregistered, replaced⟩ := of_decide_eq_true records
  have run : Run Step (initial 1 ∅) (startWorker 0 100 ++ [.child 100]) s := run_of_execute result
  refine ⟨s, run, created, (pid_files_match_iff 1 ∅ _ s run).mpr ⟨?_, replaced⟩⟩
  rw [unregistered]
  exact fun q gone => absurd gone List.not_mem_nil

/-- Worker 0 handles `SIGTERM`; or it crashes and is reforked. -/
theorem pid_files_remain :
    (∃ s, Run Step (initial 1 ∅) (startWorker 0 100 ++ [.child 100, .terminate 100]) s ∧
      pidFile .worker 100 ∈ s.files ∧ ¬ PidFilesMatch s) ∧
    ∃ s, Run Step (initial 1 ∅) reforkedWorker s ∧
      pidFile .worker 100 ∈ s.files ∧ ¬ PidFilesMatch s := by
  constructor
  · have gone : (execute step (initial 1 ∅) (startWorker 0 100 ++ [.child 100, .terminate 100])).map
        (fun s => decide ((.worker, ⟨100, 1⟩) ∈ s.created ∧ ⟨100, 1⟩ ∈ s.unregistered)) = some true := by
      decide +kernel
    obtain ⟨s, result, records⟩ := Option.map_eq_some_iff.mp gone
    obtain ⟨created, unregistered⟩ := of_decide_eq_true records
    have present := ((filed_of_run (run_of_execute result)).files _ _ created).2
    exact ⟨s, run_of_execute result, present, fun rule => rule.1 _ unregistered _ created present⟩
  · have reforked : (execute step (initial 1 ∅) reforkedWorker).map
        (fun s => decide ((.worker, ⟨100, 1⟩) ∈ s.created ∧ 100 ∈ s.replaced)) = some true := by
      decide +kernel
    obtain ⟨s, result, records⟩ := Option.map_eq_some_iff.mp reforked
    obtain ⟨created, replaced⟩ := of_decide_eq_true records
    have present := ((filed_of_run (run_of_execute result)).files _ _ created).2
    exact ⟨s, run_of_execute result, present, fun rule => rule.2 _ replaced _ _ created present⟩

end Cs544.Fuzzer
