import Cs544.Fuzzer.Supervisor

/-! Which worker a row of main's table belongs to.

Start-up gives row 0 to main and row `id + 1` to worker `id`. The refork loop keeps that
only while the row it looks up by the pid of the dead worker is the row it stands at, and
while forks succeed: after a failed one main takes itself for the child.
-/

set_option autoImplicit false

namespace Cs544.Fuzzer

open Cs544.Library

namespace Pc

/-- Main is in its refork loop, or in a call from there. -/
def supervising : Pc → Bool
  | scan _ | refork _ | replace _ _ => true
  | write _ _ _ (.scan _) | create _ _ (.scan _) => true
  | _ => false

/-- The condition for worker identities to last. A worker is registered with a pid that
the table does not hold, a refork succeeds, and the row that is found for the died pid is
the one that is reforked. -/
def Stable (t : Table) (fork : Option Nat) : Pc → Prop
  | registerWorker _ p => t.getProcDesc p = none
  | refork _ => fork ≠ none
  | replace i _ => t.getProcDesc (t.ppd i).pid = some i
  | _ => True

instance (t : Table) (fork : Option Nat) : (pc : Pc) → Decidable (pc.Stable t fork)
  | registerWorker _ _ | replace _ _ => inferInstanceAs (Decidable (_ = _))
  | refork _ => inferInstanceAs (Decidable (_ ≠ _))
  | .fork _ | install _ _ | registerMain _ _ | forkWatchdog | scan _ | replaceSelf _ | write _ _ _ _ |
    create _ _ _ | worker | exited => inferInstanceAs (Decidable True)

end Pc

/-- After start-up main is in its loop, every worker has exactly one row, and what is
written into a row is what belongs to its worker. -/
def WorkersStable (s : State) : Prop :=
  s.started = true →
    s.pc.supervising = true ∧
    (∀ id < workerNum, ∃! j, j < ppdSize ∧ (s.table.ppd j).ptype = .worker ∧ (s.table.ppd j).id = id) ∧
    ∀ field row r next, s.pc = .write field row r next →
      (s.table.ppd row).ptype = .worker ∧ (s.table.ppd row).id = r.id ∧ r.ptype = .worker

/-! ## The shape of the table -/

def Expected (mainPid : Nat) : Nat → ProcDesc → Prop
  | 0, pd => pd.ptype = .main ∧ pd.pid = mainPid
  | id + 1, pd => pd.ptype = .worker ∧ pd.id = id

/-- The first `k` rows are registered, the others are not. -/
structure Registered (mainPid k : Nat) (t : Table) : Prop where
  cnt : t.procDescCnt = k
  rows : ∀ j < k, Expected mainPid j (t.ppd j)
  unused : ∀ j, k ≤ j → (t.ppd j).ptype = .main ∧ (t.ppd j).pid = 0

/-- The table when the assignments from `field` on are made. -/
def Table.finish (t : Table) (row : Nat) (r : Registration) : Field → Table
  | .pid => (((t.write row r .pid).write row r .ptype).write row r .id).write row r .died
  | .ptype => ((t.write row r .ptype).write row r .id).write row r .died
  | .id => (t.write row r .id).write row r .died
  | .died => t.write row r .died

variable {s s' : State} {t t' : Table} {mainPid k row : Nat} {r : Registration} {field : Field}

theorem Expected.congr {pd pd' : ProcDesc} {j : Nat} (expected : Expected mainPid j pd) (pid : pd'.pid = pd.pid)
    (ptype : pd'.ptype = pd.ptype) (id : pd'.id = pd.id) : Expected mainPid j pd' := by
  cases j with
  | zero => exact ⟨ptype.trans expected.1, pid.trans expected.2⟩
  | succ j => exact ⟨ptype.trans expected.1, id.trans expected.2⟩

namespace Table

@[simp] theorem finish_cnt : (t.finish row r field).procDescCnt = t.procDescCnt := by
  cases field <;> rfl

theorem finish_of_ne {j : Nat} (other : j ≠ row) : (t.finish row r field).ppd j = t.ppd j := by
  cases field <;> simp only [finish, write_of_ne other]

@[simp] theorem finish_pid_self :
    (t.finish row r .pid).ppd row = ⟨r.id, (t.ppd row).flog, r.pid, r.ptype, false⟩ := by
  simp [finish, write]

/-- Two tables that differ only in who has died and in their logs. -/
structure Similar (t t' : Table) : Prop where
  cnt : t'.procDescCnt = t.procDescCnt
  pid : ∀ j, (t'.ppd j).pid = (t.ppd j).pid
  ptype : ∀ j, (t'.ppd j).ptype = (t.ppd j).ptype
  id : ∀ j, (t'.ppd j).id = (t.ppd j).id

theorem similar_markDied (t : Table) (x : Nat) : Similar t (t.markDied x) := by
  refine ⟨rfl, markDied_pid x, fun j => ?_, fun j => ?_⟩
  · by_cases here : j = x
    · simp [markDied, here]
    · rw [markDied_of_ne here]
  · by_cases here : j = x
    · simp [markDied, here]
    · rw [markDied_of_ne here]

theorem similar_openLog (t : Table) (row : Nat) (r : Registration) : Similar t (t.openLog row r) :=
  ⟨rfl, fun j => (openLog_row j).1, fun j => (openLog_row j).2.1, fun j => (openLog_row j).2.2.1⟩

theorem Similar.write (similar : Similar t t') (row : Nat) (r : Registration) (field : Field) :
    Similar (t.write row r field) (t'.write row r field) := by
  refine ⟨similar.cnt, fun j => ?_, fun j => ?_, fun j => ?_⟩
  · by_cases here : j = row
    · subst here
      cases field <;> simp [Table.write, similar.pid]
    · rw [write_of_ne here, write_of_ne here, similar.pid]
  · by_cases here : j = row
    · subst here
      cases field <;> simp [Table.write, similar.ptype]
    · rw [write_of_ne here, write_of_ne here, similar.ptype]
  · by_cases here : j = row
    · subst here
      cases field <;> simp [Table.write, similar.id]
    · rw [write_of_ne here, write_of_ne here, similar.id]

theorem Similar.finish (similar : Similar t t') : Similar (t.finish row r field) (t'.finish row r field) := by
  cases field with
  | pid => exact (((similar.write row r .pid).write row r .ptype).write row r .id).write row r .died
  | ptype => exact ((similar.write row r .ptype).write row r .id).write row r .died
  | id => exact (similar.write row r .id).write row r .died
  | died => exact similar.write row r .died

end Table

namespace Registered

theorem similar (reg : Registered mainPid k t) (similar : Table.Similar t t') : Registered mainPid k t' where
  cnt := similar.cnt.trans reg.cnt
  rows j inside := (reg.rows j inside).congr (similar.pid j) (similar.ptype j) (similar.id j)
  unused j beyond := ⟨(similar.ptype j).trans (reg.unused j beyond).1, (similar.pid j).trans (reg.unused j beyond).2⟩

theorem extend (reg : Registered mainPid k t) (expected : Expected mainPid k ⟨r.id, (t.ppd k).flog, r.pid, r.ptype, false⟩) :
    Registered mainPid (k + 1) (Table.finish { t with procDescCnt := t.procDescCnt + 1 } k r .pid) where
  cnt := by rw [Table.finish_cnt, reg.cnt]
  rows j inside := by
    by_cases here : j = k
    · rw [here, Table.finish_pid_self]
      exact expected
    · rw [Table.finish_of_ne here]
      exact reg.rows j (by omega)
  unused j beyond := by
    rw [Table.finish_of_ne (by omega)]
    exact reg.unused j (by omega)

theorem write (reg : Registered mainPid k t) {id : Nat} (inside : id + 1 < k) (ptype : r.ptype = .worker)
    (same : r.id = id) (field : Field) : Registered mainPid k (t.write (id + 1) r field) where
  cnt := reg.cnt
  rows j known := by
    by_cases here : j = id + 1
    · subst here
      obtain ⟨worker, own⟩ := reg.rows (id + 1) inside
      cases field <;> simp [Table.write, Expected, worker, own, ptype, same]
    · rw [Table.write_of_ne here]
      exact reg.rows j known
  unused j beyond := by
    rw [Table.write_of_ne (by omega)]
    exact reg.unused j beyond

theorem finish (reg : Registered mainPid k t) {id : Nat} (inside : id + 1 < k) (ptype : r.ptype = .worker)
    (same : r.id = id) (field : Field) : Registered mainPid k (t.finish (id + 1) r field) := by
  have step {t : Table} (reg : Registered mainPid k t) (field : Field) := reg.write inside ptype same field
  cases field with
  | pid => exact step (step (step (step reg .pid) .ptype) .id) .died
  | ptype => exact step (step (step reg .ptype) .id) .died
  | id => exact step (step reg .id) .died
  | died => exact step reg .died

/-- Who is main, and which row is whose, can be read off the table. -/
theorem unique_row (reg : Registered mainPid (workerNum + 1) t) {id : Nat} (worker : id < workerNum) :
    ∃! j, j < ppdSize ∧ (t.ppd j).ptype = .worker ∧ (t.ppd j).id = id := by
  refine ⟨id + 1, ⟨by rw [ppdSize]; omega, reg.rows (id + 1) (by omega)⟩, ?_⟩
  rintro j ⟨_, ptype, own⟩
  by_cases beyond : workerNum + 1 ≤ j
  · rw [(reg.unused j beyond).1] at ptype
    cases ptype
  · cases j with
    | zero =>
      rw [(reg.rows 0 (by omega)).1] at ptype
      cases ptype
    | succ j =>
      rw [(reg.rows (j + 1) (by omega)).2] at own
      rw [own]

end Registered

/-! ## Steps of main -/

def rowsBefore (id : Nat) : Nat := if id = 0 then 0 else id + 1

/-- The table when a call of `register_new_process` returns. -/
def Return.Fits (mainPid : Nat) (t : Table) (started : Bool) : Return → Prop
  | registerWorker id _ => started = false ∧ id < workerNum ∧ Registered mainPid (id + 1) t
  | afterWorker id => started = false ∧ id < workerNum ∧ Registered mainPid (id + 2) t
  | scan _ => started = true ∧ Registered mainPid (workerNum + 1) t
  | worker => False

/-- The table at every statement of main. In a call it is what it will be at the return;
in the refork loop nothing is written that is not there already, the pid apart. -/
def Pc.Fits (mainPid : Nat) (t : Table) (started : Bool) : Pc → Prop
  | fork id | install id _ | registerMain id _ =>
      started = false ∧ id < workerNum ∧ Registered mainPid (rowsBefore id) t
  | registerWorker id _ => started = false ∧ id < workerNum ∧ Registered mainPid (id + 1) t
  | forkWatchdog => started = false ∧ Registered mainPid (workerNum + 1) t
  | scan _ => started = true ∧ Registered mainPid (workerNum + 1) t
  | refork i | replace i _ =>
      started = true ∧ Registered mainPid (workerNum + 1) t ∧ (t.ppd i).pid ≠ 0 ∧ ∃ id < workerNum, i = id + 1
  | write field row r next =>
      next.Fits mainPid (t.finish row r field) started ∧
        (started = true → Registered mainPid (workerNum + 1) t ∧
          ∃ id < workerNum, row = id + 1 ∧ r.ptype = .worker ∧ r.id = id)
  | create _ _ next => next.Fits mainPid t started
  | exited => started = false
  | replaceSelf _ | worker => False

theorem Return.Fits.pc {started : Bool} {next : Return} (fits : next.Fits mainPid t started) :
    next.pc.Fits mainPid t started := by
  cases next with
  | registerWorker id p => exact fits
  | afterWorker id =>
    obtain ⟨starting, inside, reg⟩ := fits
    rw [Return.pc]
    split_ifs with more
    · exact ⟨starting, more, reg⟩
    · have last : id + 2 = workerNum + 1 := by omega
      exact ⟨starting, last ▸ reg⟩
  | scan i => exact fits
  | worker => exact fits

theorem Return.Fits.similar {started : Bool} {next : Return} (fits : next.Fits mainPid t started)
    (similar : Table.Similar t t') : next.Fits mainPid t' started := by
  cases next with
  | registerWorker id p | afterWorker id => exact ⟨fits.1, fits.2.1, fits.2.2.similar similar⟩
  | scan i => exact ⟨fits.1, fits.2.similar similar⟩
  | worker => exact fits

/-- It does not matter who has died, or which log is open. -/
theorem Pc.Fits.similar {started : Bool} {pc : Pc} (fits : pc.Fits mainPid t started)
    (similar : Table.Similar t t') : pc.Fits mainPid t' started := by
  cases pc with
  | fork id | install id p | registerMain id p | registerWorker id p =>
    exact ⟨fits.1, fits.2.1, fits.2.2.similar similar⟩
  | forkWatchdog | scan i => exact ⟨fits.1, fits.2.similar similar⟩
  | refork i | replace i p =>
    obtain ⟨running, reg, present, worker⟩ := fits
    exact ⟨running, reg.similar similar, by rwa [similar.pid], worker⟩
  | write field row r next =>
    obtain ⟨returns, rewrites⟩ := fits
    exact ⟨returns.similar similar.finish, fun running => ⟨(rewrites running).1.similar similar, (rewrites running).2⟩⟩
  | create row r next => exact Return.Fits.similar fits similar
  | exited | replaceSelf i | worker => exact fits

/-- Main exists, and its table fits the statement it is at. -/
structure Identified (s : State) : Prop where
  process : s.mainPid ≠ 0
  fits : s.pc.Fits s.mainPid s.table s.started

theorem Identified.workersStable (identified : Identified s) : WorkersStable s := by
  intro running
  have fits := identified.fits
  rw [running] at fits
  cases at' : s.pc with
  | scan i =>
    rw [at'] at fits
    exact ⟨rfl, fun id => fits.2.unique_row, nofun⟩
  | refork i | replace i p =>
    rw [at'] at fits
    exact ⟨rfl, fun id => fits.2.1.unique_row, nofun⟩
  | write field row r next =>
    rw [at'] at fits
    obtain ⟨returns, rewrites⟩ := fits
    obtain ⟨reg, id, inside, rfl, ptype, same⟩ := rewrites rfl
    refine ⟨?_, fun id => reg.unique_row, ?_⟩
    · cases next with
      | scan i => rfl
      | registerWorker _ _ | afterWorker _ => exact absurd returns.1 nofun
      | worker => exact returns.elim
    · intro field' row' r' next' equal
      cases equal
      obtain ⟨worker, own⟩ := reg.rows (id + 1) (by omega)
      exact ⟨worker, own.trans same.symm, ptype⟩
  | create row r next =>
    rw [at'] at fits
    cases next with
    | scan i => exact ⟨rfl, fun id => fits.2.unique_row, nofun⟩
    | registerWorker _ _ | afterWorker _ => exact absurd fits.1 nofun
    | worker => exact fits.elim
  | fork _ | install _ _ | registerMain _ _ | registerWorker _ _ | forkWatchdog =>
    rw [at'] at fits
    exact absurd fits.1 nofun
  | exited =>
    rw [at'] at fits
    exact absurd fits nofun
  | replaceSelf _ | worker =>
    rw [at'] at fits
    exact fits.elim

namespace State

variable {next : Return}

theorem call_of_known (new : r.replaceDiedPid = 0) (known : s.table.getProcDesc r.pid ≠ none) :
    s.call r next = { s with pc := next.pc } := by
  simp [call, Table.claim, new, Option.isSome_iff_ne_none.mpr known]

theorem call_of_unknown (new : r.replaceDiedPid = 0) (unknown : s.table.getProcDesc r.pid = none) :
    s.call r next = { s with
      table := { s.table with procDescCnt := s.table.procDescCnt + 1 }
      pc := .write .pid s.table.procDescCnt r next } := by
  simp [call, Table.claim, new, unknown]

theorem call_of_found (old : r.replaceDiedPid ≠ 0) (found : s.table.getProcDesc r.replaceDiedPid = some row) :
    s.call r next = { s with pc := .write .pid row r next } := by
  simp [call, Table.claim, old, found]

end State

namespace Identified

/-- Main registers itself before its first worker, and finds itself afterwards. -/
theorem registersMain (identified : Identified s) {id p : Nat} (at' : s.pc = .registerMain id p) :
    Identified (s.call ⟨s.mainPid, .main, id, 0⟩ (.registerWorker id p)) := by
  obtain ⟨process, fits⟩ := identified
  rw [at'] at fits
  obtain ⟨starting, inside, reg⟩ := fits
  by_cases first : id = 0
  -- The table is still zeroed, and main's pid is not 0.
  · subst first
    have unknown : s.table.getProcDesc s.mainPid = none := by
      refine Table.getProcDesc_eq_none.mpr fun j _ holds => ?_
      rw [(reg.unused j (Nat.zero_le j)).2] at holds
      exact process holds.symm
    rw [State.call_of_unknown rfl unknown, reg.cnt]
    refine ⟨process, ⟨starting, inside, ?_⟩, fun running => ?_⟩
    · have extended := reg.extend (r := ⟨s.mainPid, .main, 0, 0⟩) ⟨rfl, rfl⟩
      rwa [reg.cnt] at extended
    · exact absurd (starting.symm.trans running) nofun
  · rw [rowsBefore, if_neg first] at reg
    have known : s.table.getProcDesc s.mainPid ≠ none := fun unknown =>
      Table.getProcDesc_eq_none.mp unknown 0 (Nat.zero_lt_succ _) (reg.rows 0 (Nat.zero_lt_succ id)).2
    rw [State.call_of_known rfl known]
    exact ⟨process, starting, inside, reg⟩

theorem registersWorker (identified : Identified s) {id p : Nat} (at' : s.pc = .registerWorker id p)
    (unknown : s.table.getProcDesc p = none) : Identified (s.call ⟨p, .worker, id, 0⟩ (.afterWorker id)) := by
  obtain ⟨process, fits⟩ := identified
  rw [at'] at fits
  obtain ⟨starting, inside, reg⟩ := fits
  rw [State.call_of_unknown rfl unknown, reg.cnt]
  refine ⟨process, ⟨starting, inside, ?_⟩, fun running => ?_⟩
  · have extended := reg.extend (r := ⟨p, .worker, id, 0⟩) ⟨rfl, rfl⟩
    rwa [reg.cnt] at extended
  · exact absurd (starting.symm.trans running) nofun

theorem replaces (identified : Identified s) {i p : Nat} (at' : s.pc = .replace i p)
    (found : s.table.getProcDesc (s.table.ppd i).pid = some i) :
    Identified (s.call ⟨p, .worker, (s.table.ppd i).id, (s.table.ppd i).pid⟩ (.scan (i + 1))) := by
  obtain ⟨process, fits⟩ := identified
  rw [at'] at fits
  obtain ⟨running, reg, present, id, worker, rfl⟩ := fits
  obtain ⟨_, own⟩ := reg.rows (id + 1) (by omega)
  rw [State.call_of_found present found]
  refine ⟨process, ⟨running, ?_⟩, fun _ => ⟨reg, id, worker, rfl, rfl, own⟩⟩
  exact reg.finish (by omega) rfl own .pid

theorem writes (identified : Identified s) {next : Return} (at' : s.pc = .write field row r next)
    {owner : Nat → Nat} :
    Identified { s with
      table := s.table.write row r field
      owner
      pc := match field.next with
        | some field => .write field row r next
        | none => .create row r next } := by
  obtain ⟨process, fits⟩ := identified
  rw [at'] at fits
  obtain ⟨returns, rewrites⟩ := fits
  have rewritten : s.started = true → Registered s.mainPid (workerNum + 1) (s.table.write row r field) ∧
      ∃ id < workerNum, row = id + 1 ∧ r.ptype = .worker ∧ r.id = id := by
    intro running
    obtain ⟨reg, id, inside, rfl, ptype, same⟩ := rewrites running
    exact ⟨reg.write (by omega) ptype same field, id, inside, rfl, ptype, same⟩
  refine ⟨process, ?_⟩
  cases field with
  | pid | ptype | id => exact ⟨returns, rewritten⟩
  | died => exact returns

theorem mainStep (identified : Identified s) {fork : Option Nat} (stable : s.pc.Stable s.table fork)
    (effect : MainEffect s fork s') : Identified s' := by
  have process := identified.process
  have fits := identified.fits
  cases effect with
  | forkFails at' =>
    rw [at'] at fits
    exact ⟨process, fits.1⟩
  | forks at' free =>
    rw [at'] at fits
    exact ⟨process, fits⟩
  | installs at' =>
    rw [at'] at fits
    exact ⟨process, fits⟩
  | registersMain at' => exact identified.registersMain at'
  | registersWorker at' =>
    rw [at'] at stable
    exact identified.registersWorker at' stable
  | watchdogFails at' =>
    rw [at'] at fits
    exact ⟨process, rfl, fits.2⟩
  | forksWatchdog at' free =>
    rw [at'] at fits
    exact ⟨process, rfl, fits.2⟩
  | @finds i fork at' inside worker present died =>
    rw [at'] at fits
    refine ⟨process, fits.1, fits.2, present, ?_⟩
    rw [fits.2.cnt] at inside
    -- Row 0 is main's, so what died is in the row of a worker.
    cases i with
    | zero =>
      rw [(fits.2.rows 0 inside).1] at worker
      cases worker
    | succ id => exact ⟨id, by omega, rfl⟩
  | passes at' inside other =>
    rw [at'] at fits
    exact ⟨process, fits⟩
  | restarts at' beyond =>
    rw [at'] at fits
    exact ⟨process, fits⟩
  | reforkFails at' =>
    rw [at'] at stable
    exact absurd rfl stable
  | reforks at' free =>
    rw [at'] at fits
    exact ⟨process, fits⟩
  | replaces at' =>
    rw [at'] at stable
    exact identified.replaces at' stable
  | replacesSelf at' =>
    rw [at'] at fits
    exact fits.elim
  | writes at' => exact identified.writes at'
  | creates at' =>
    rw [at'] at fits
    exact ⟨process, Return.Fits.pc (Return.Fits.similar fits (Table.similar_openLog ..))⟩

end Identified

/-! ## Whole runs -/

/-- What is not a statement of main changes nothing for it but who has died. -/
theorem step_frame {a : Action} (other : ∀ fork, a ≠ .main fork) (edge : Step s a s') :
    s'.mainPid = s.mainPid ∧ s'.pc = s.pc ∧ s'.started = s.started ∧ Table.Similar s.table s'.table := by
  have refl : Table.Similar s.table s.table := ⟨rfl, fun _ => rfl, fun _ => rfl, fun _ => rfl⟩
  cases step_effect edge with
  | @main fork s' idle effect => exact absurd rfl (other fork)
  | delivers pending idle running => exact ⟨rfl, rfl, rfl, refl⟩
  | ends waiting nobody => exact ⟨rfl, rfl, rfl, refl⟩
  | reaps waiting zombie => exact ⟨rfl, rfl, rfl, refl⟩
  | givesUp looking unknown => exact ⟨rfl, rfl, rfl, refl⟩
  | @marks q row reaped looking found => exact ⟨rfl, rfl, rfl, Table.similar_markDied s.table row⟩
  | exits live running => exact ⟨rfl, rfl, rfl, refl⟩
  | child present new =>
    unfold childStep
    split <;> exact ⟨rfl, rfl, rfl, refl⟩
  | hangup present registered =>
    unfold unregisterStep
    split <;> exact ⟨rfl, rfl, rfl, refl⟩
  | terminate present registered running =>
    unfold unregisterStep State.terminated
    split <;> exact ⟨rfl, rfl, rfl, refl⟩

/-- The condition on a step: it speaks only of main. -/
def Stable (s : State) : Action → Prop
  | .main fork => s.pc.Stable s.table fork
  | _ => True

instance (s : State) : (a : Action) → Decidable (Stable s a)
  | .main fork => inferInstanceAs (Decidable (s.pc.Stable s.table fork))
  | .deliver | .handler _ | .exits _ | .child _ | .hangup _ | .terminate _ => inferInstanceAs (Decidable True)

theorem Identified.preserved (identified : Identified s) {a : Action} (stable : Stable s a) (edge : Step s a s') :
    Identified s' := by
  by_cases main : ∃ fork, a = .main fork
  · obtain ⟨fork, rfl⟩ := main
    cases step_effect edge with
    | main idle effect => exact identified.mainStep stable effect
  · obtain ⟨pid, pc, started, similar⟩ := step_frame (fun fork same => main ⟨fork, same⟩) edge
    refine ⟨by rw [pid]; exact identified.process, ?_⟩
    rw [pid, pc, started]
    exact identified.fits.similar similar

def StableStep (s : State) (a : Action) (s' : State) : Prop := Stable s a ∧ Step s a s'

/-- In every run whose steps all meet the condition, main supervises for ever and every
worker keeps its row. -/
theorem supervisor_keeps_worker_identity (mainPid : Nat) (files : Finset String) (actions : List Action) (s : State)
    (process : mainPid ≠ 0) (run : Run StableStep (initial mainPid files) actions s) : WorkersStable s := by
  have start : Identified (initial mainPid files) := by
    refine ⟨process, rfl, by decide, rfl, ?_, fun _ _ => ⟨rfl, rfl⟩⟩
    exact fun j inside => absurd inside (Nat.not_lt_zero j)
  have identified : Identified s :=
    run.invariant Identified (fun identified edge => identified.preserved edge.1 edge.2) start
  exact identified.workersStable

theorem supervisor_keeps_worker_identity_refork :
    ∃ s, Run StableStep (initial 1 ∅) reforkedWorker s ∧
      (s.started = true ∧ (s.table.ppd 1).pid = 105) ∧ WorkersStable s := by
  have reforked : (execute (fun s a => if Stable s a then step s a else none) (initial 1 ∅) reforkedWorker).map
      (fun s => decide (s.started = true ∧ (s.table.ppd 1).pid = 105)) = some true := by
    decide +kernel
  obtain ⟨s, result, replaced⟩ := Option.map_eq_some_iff.mp reforked
  have run := (run_of_execute result).mono fun edge => Option.ite_none_right_eq_some.mp edge
  exact ⟨s, run, of_decide_eq_true replaced, supervisor_keeps_worker_identity 1 ∅ _ s (by decide) run⟩

/-- The fork for worker 0 fails, and main goes on as its child. -/
def failedRefork : List Action := startUp ++ crash 100 ++ List.replicate 9 (.main none)

/-- Worker 0 comes back with the pid that worker 1 had, so the row of worker 0 is found
when worker 1 is replaced. -/
def reusedPid : List Action :=
  startUp ++ crash 100 ++ crash 101 ++ [.main none, .main none, .main (some 101)] ++
    List.replicate 7 (.main none) ++ [.main (some 105)] ++ List.replicate 6 (.main none)

theorem supervisor_loses_worker_identity :
    (∃ s, Run Step (initial 1 ∅) failedRefork s ∧ s.pc = .worker ∧ ¬ WorkersStable s) ∧
    ∃ s, Run Step (initial 1 ∅) reusedPid s ∧ s.pc.supervising = true ∧ ¬ WorkersStable s := by
  constructor
  · have executes : (execute step (initial 1 ∅) failedRefork).map
        (fun s => decide (s.started = true ∧ s.pc = .worker)) = some true := by
      decide +kernel
    obtain ⟨s, result, started⟩ := Option.map_eq_some_iff.mp executes
    obtain ⟨running, worker⟩ := of_decide_eq_true started
    refine ⟨s, run_of_execute result, worker, fun stable => ?_⟩
    have supervising := (stable running).1
    rw [worker] at supervising
    cases supervising
  · have overwritten : (execute step (initial 1 ∅) reusedPid).map
        (fun s => decide (s.started = true ∧ s.pc.supervising = true ∧
          ∀ j < ppdSize, ¬ ((s.table.ppd j).ptype = .worker ∧ (s.table.ppd j).id = 0))) = some true := by
      decide +kernel
    obtain ⟨s, result, started⟩ := Option.map_eq_some_iff.mp overwritten
    obtain ⟨running, supervising, missing⟩ := of_decide_eq_true started
    refine ⟨s, run_of_execute result, supervising, fun stable => ?_⟩
    obtain ⟨j, ⟨inside, row⟩, _⟩ := (stable running).2.1 0 (by decide)
    exact missing j inside row

end Cs544.Fuzzer
