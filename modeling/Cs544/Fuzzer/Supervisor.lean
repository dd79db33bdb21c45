import Mathlib.Data.Finset.Basic
import Cs544.Fuzzer.ProcTable
import Cs544.Library.Runs

/-! The processes of the fuzzer: main, its workers and the watchdog.

Main forks the workers and the watchdog, registers the workers in its table and then
goes round its table for ever, forking anew whatever died. `SIGCHLD_handler` interrupts
it between any two statements; a pending signal absorbs further ones, and `waitpid`
returns terminated children in any order. A child is forked with a copy of the table,
registers itself in its copy and handles `SIGHUP` and `SIGTERM`. What is written to the
logs is left out.
-/

set_option autoImplicit false

namespace Cs544.Fuzzer

open Cs544.Library

/-- Where a call of `register_new_process` in main returns to. -/
inductive Return where
  -- The registration of `child`, the worker `id`.
  | registerWorker (id child : Nat)
  -- The end of the start-up loop for worker `id`.
  | afterWorker (id : Nat)
  | scan (i : Nat)
  | worker
  deriving DecidableEq, Repr

/-- The next statement of main. -/
inductive Pc where
  -- The fork of worker `id`.
  | fork (id : Nat)
  -- `signal(SIGCHLD, SIGCHLD_handler)`, behind the fork of `child`.
  | install (id child : Nat)
  -- `register_new_process(getpid(), PROC_TYPE_MAIN, id, 0)`.
  | registerMain (id child : Nat)
  -- `register_new_process(fork_res, PROC_TYPE_WORKER, id, 0)`.
  | registerWorker (id child : Nat)
  | forkWatchdog
  -- The condition of the refork loop for row `i`.
  | scan (i : Nat)
  -- The fork for row `i`.
  | refork (i : Nat)
  -- `register_new_process(fork_res, PROC_TYPE_WORKER, ppd[i].id, ppd[i].pid)`.
  | replace (i child : Nat)
  -- The same with `getpid()`, in the branch that is meant for the child.
  | replaceSelf (i : Nat)
  -- An assignment in `register_new_process`.
  | write (field : Field) (row : Nat) (r : Registration) (next : Return)
  -- The two files in `register_new_process`. Nothing else looks at either while main is in it.
  | create (row : Nat) (r : Registration) (next : Return)
  -- Main executes `worker`.
  | worker
  | exited
  deriving DecidableEq, Repr

def Return.pc : Return → Pc
  | registerWorker id child => .registerWorker id child
  | afterWorker id => if id + 1 < workerNum then .fork (id + 1) else .forkWatchdog
  | scan i => .scan i
  | worker => .worker

inductive Handler where
  | waitpid
  -- `get_proc_desc` of the pid that `waitpid` returned.
  | found (pid : Nat)
  deriving DecidableEq, Repr

/-- A child: its table, the registration it begins with, and whether that is done. -/
structure Child where
  table : Table
  registration : Registration
  running : Bool

/-- A process: its pid, and how many processes have had it so far. -/
structure Process where
  pid : Nat
  birth : Nat
  deriving DecidableEq, Repr

/-- All processes and the pid files. The last six fields record what has happened, and
no step depends on them. -/
structure State where
  mainPid : Nat
  table : Table
  pc : Pc
  handler : Option Handler
  pending : Bool
  installed : Bool
  live : Finset Nat
  zombies : Finset Nat
  child : Nat → Option Child
  files : Finset String
  -- Start-up is over.
  started : Bool
  -- How many processes have been forked with a pid.
  births : Nat → Nat
  -- Which of the processes with its pid a row of the table was written for.
  owner : Nat → Nat
  -- Processes a pid file was created for.
  created : List (ProcType × Process)
  -- Processes for which `unregister_process` has returned.
  unregistered : List Process
  -- Died pids whose row has been replaced.
  replaced : List Nat

/-- Main behind its look into `pid/`, whatever files are there. -/
def initial (mainPid : Nat) (files : Finset String) : State where
  mainPid := mainPid
  table := .zeroed
  pc := .fork 0
  handler := none
  pending := false
  installed := false
  live := ∅
  zombies := ∅
  child _ := none
  files := files
  started := false
  births _ := 0
  owner _ := 0
  created := []
  unregistered := []
  replaced := []

/-- A pid that `fork` may return: it belongs to no process that still exists. -/
def State.Free (s : State) (p : Nat) : Prop := p ≠ 0 ∧ p ≠ s.mainPid ∧ p ∉ s.live ∧ p ∉ s.zombies

instance (s : State) (p : Nat) : Decidable (s.Free p) := inferInstanceAs (Decidable (_ ∧ _))

/-- A successful fork, with what the child is to register itself as. -/
def State.spawn (s : State) (r : Registration) : State :=
  { s with
    live := insert r.pid s.live
    child := Function.update s.child r.pid (some ⟨s.table, r, false⟩)
    births := Function.update s.births r.pid (s.births r.pid + 1) }

def State.process (s : State) (p : Nat) : Process := ⟨p, s.births p⟩

/-- The call of `register_new_process` in main. When it finds the pid already in the
table, it returns at once; a row to replace that is not there would be a null pointer. -/
def State.call (s : State) (r : Registration) (next : Return) : State :=
  match s.table.claim r with
  | some (row, table) => { s with table, pc := .write .pid row r next }
  | none => { s with pc := if r.replaceDiedPid = 0 then next.pc else .exited }

/-- The pid file of a registration, at its end. -/
def State.createFile (s : State) (r : Registration) : State :=
  { s with
    files := insert (pidFile r.ptype r.pid) s.files
    created := (r.ptype, s.process r.pid) :: s.created
    replaced := if r.replaceDiedPid = 0 then s.replaced else r.replaceDiedPid :: s.replaced }

/-- The next statement of main. `fork` is what `fork()` returns where it is called, with
`none` for -1. -/
def mainStep (s : State) (fork : Option Nat) : Option State :=
  match s.pc with
  | .fork id =>
      match fork with
      | none => some { s with pc := .exited }
      | some p => if s.Free p then some { s.spawn ⟨p, .worker, id, 0⟩ with pc := .install id p } else none
  | .install id p => some { s with installed := true, pc := .registerMain id p }
  | .registerMain id p => some (s.call ⟨s.mainPid, .main, id, 0⟩ (.registerWorker id p))
  | .registerWorker id p => some (s.call ⟨p, .worker, id, 0⟩ (.afterWorker id))
  | .forkWatchdog =>
      match fork with
      | none => some { s with started := true, pc := .scan 0 }
      | some p =>
          if s.Free p then
            some { s.spawn ⟨p, .wd, workerNum, 0⟩ with started := true, pc := .scan 0 }
          else none
  | .scan i =>
      if i < s.table.procDescCnt then
        let pd := s.table.ppd i
        some { s with pc := if pd.ptype = .worker ∧ pd.pid ≠ 0 ∧ pd.died then .refork i else .scan (i + 1) }
      else some { s with pc := .scan 0 }
  | .refork i =>
      let pd := s.table.ppd i
      match fork with
      | none => some { s with pc := .replaceSelf i }
      | some p =>
          if s.Free p then some { s.spawn ⟨p, .worker, pd.id, pd.pid⟩ with pc := .replace i p } else none
  | .replace i p =>
      let pd := s.table.ppd i
      some (s.call ⟨p, .worker, pd.id, pd.pid⟩ (.scan (i + 1)))
  | .replaceSelf i =>
      let pd := s.table.ppd i
      some (s.call ⟨s.mainPid, .worker, pd.id, pd.pid⟩ .worker)
  | .write field row r next =>
      some { s with
        table := s.table.write row r field
        owner := if field = .pid then Function.update s.owner row (s.births r.pid) else s.owner
        pc := match field.next with
          | some field => .write field row r next
          | none => .create row r next }
  | .create row r next => some { s.createFile r with table := s.table.openLog row r, pc := next.pc }
  | .worker => none
  | .exited => none

/-- The next statement of the handler. `reaped` is what `waitpid` returns, with `none`
when no child has terminated. -/
def handlerStep (s : State) (reaped : Option Nat) : Option State :=
  match s.handler with
  | none => none
  | some .waitpid =>
      match reaped with
      | none => if s.zombies = ∅ then some { s with handler := none } else none
      | some q =>
          if q ∈ s.zombies then some { s with zombies := s.zombies.erase q, handler := some (.found q) }
          else none
  | some (.found q) =>
      match s.table.getProcDesc q with
      -- The handler returns, whatever else there is to wait for.
      | none => some { s with handler := none }
      | some row => some { s with table := s.table.markDied row, handler := some .waitpid }

/-- A child terminates. Before main has installed its handler the signal is ignored. -/
def State.terminated (s : State) (p : Nat) : State :=
  { s with
    live := s.live.erase p
    zombies := insert p s.zombies
    child := Function.update s.child p none
    pending := s.pending || s.installed }

/-- `register_new_process` in a child, as soon as it runs. -/
def childStep (s : State) (p : Nat) (c : Child) : State :=
  match c.table.register c.registration with
  | some table =>
      { s.createFile c.registration with
        child := Function.update s.child p (some { c with table, running := true }) }
  | none => { s with child := Function.update s.child p (some { c with running := true }) }

/-- `unregister_process(getpid(), PROC_TYPE_DEF)` in a child. -/
def unregisterStep (s : State) (p : Nat) (c : Child) : State :=
  match c.table.unregister p with
  | some table =>
      { s with
        files := s.files.erase (pidFile .default p)
        child := Function.update s.child p (some { c with table })
        unregistered := s.process p :: s.unregistered }
  | none => { s with unregistered := s.process p :: s.unregistered }

inductive Action where
  | main (fork : Option Nat)
  -- `SIGCHLD` is delivered.
  | deliver
  | handler (reaped : Option Nat)
  -- A child crashes or exits.
  | exits (pid : Nat)
  | child (pid : Nat)
  -- A child handles `SIGHUP`.
  | hangup (pid : Nat)
  -- A child handles `SIGTERM`.
  | terminate (pid : Nat)
  deriving DecidableEq, Repr

/-- One step of the system. Main waits while its handler runs. -/
def step (s : State) : Action → Option State
  | .main fork => if s.handler = none then mainStep s fork else none
  | .deliver =>
      if s.pending ∧ s.handler = none ∧ s.pc ≠ .exited then
        some { s with pending := false, handler := some .waitpid }
      else none
  | .handler reaped => handlerStep s reaped
  | .exits p => if p ∈ s.live ∧ s.pc ≠ .exited then some (s.terminated p) else none
  | .child p =>
      match s.child p with
      | some c => if c.running then none else some (childStep s p c)
      | none => none
  | .hangup p =>
      match s.child p with
      | some c => if c.running then some (unregisterStep s p c) else none
      | none => none
  | .terminate p =>
      match s.child p with
      | some c => if c.running ∧ s.pc ≠ .exited then some ((unregisterStep s p c).terminated p) else none
      | none => none

def Step (s : State) (a : Action) (s' : State) : Prop := step s a = some s'

/-! ## What a step can do -/

/-- The statements of main, each with what it finds and what it leaves. -/
inductive MainEffect (s : State) : Option Nat → State → Prop where
  | forkFails {id : Nat} (at' : s.pc = .fork id) : MainEffect s none { s with pc := .exited }
  | forks {id p : Nat} (at' : s.pc = .fork id) (free : s.Free p) :
      MainEffect s (some p) { s.spawn ⟨p, .worker, id, 0⟩ with pc := .install id p }
  | installs {id p : Nat} {fork : Option Nat} (at' : s.pc = .install id p) :
      MainEffect s fork { s with installed := true, pc := .registerMain id p }
  | registersMain {id p : Nat} {fork : Option Nat} (at' : s.pc = .registerMain id p) :
      MainEffect s fork (s.call ⟨s.mainPid, .main, id, 0⟩ (.registerWorker id p))
  | registersWorker {id p : Nat} {fork : Option Nat} (at' : s.pc = .registerWorker id p) :
      MainEffect s fork (s.call ⟨p, .worker, id, 0⟩ (.afterWorker id))
  | watchdogFails (at' : s.pc = .forkWatchdog) : MainEffect s none { s with started := true, pc := .scan 0 }
  | forksWatchdog {p : Nat} (at' : s.pc = .forkWatchdog) (free : s.Free p) :
      MainEffect s (some p) { s.spawn ⟨p, .wd, workerNum, 0⟩ with started := true, pc := .scan 0 }
  | finds {i : Nat} {fork : Option Nat} (at' : s.pc = .scan i) (inside : i < s.table.procDescCnt)
      (worker : (s.table.ppd i).ptype = .worker) (present : (s.table.ppd i).pid ≠ 0)
      (died : (s.table.ppd i).died = true) : MainEffect s fork { s with pc := .refork i }
  | passes {i : Nat} {fork : Option Nat} (at' : s.pc = .scan i) (inside : i < s.table.procDescCnt)
      (other : ¬ ((s.table.ppd i).ptype = .worker ∧ (s.table.ppd i).pid ≠ 0 ∧ (s.table.ppd i).died = true)) :
      MainEffect s fork { s with pc := .scan (i + 1) }
  | restarts {i : Nat} {fork : Option Nat} (at' : s.pc = .scan i) (beyond : ¬ i < s.table.procDescCnt) :
      MainEffect s fork { s with pc := .scan 0 }
  | reforkFails {i : Nat} (at' : s.pc = .refork i) : MainEffect s none { s with pc := .replaceSelf i }
  | reforks {i p : Nat} (at' : s.pc = .refork i) (free : s.Free p) :
      MainEffect s (some p)
        { s.spawn ⟨p, .worker, (s.table.ppd i).id, (s.table.ppd i).pid⟩ with pc := .replace i p }
  | replaces {i p : Nat} {fork : Option Nat} (at' : s.pc = .replace i p) :
      MainEffect s fork (s.call ⟨p, .worker, (s.table.ppd i).id, (s.table.ppd i).pid⟩ (.scan (i + 1)))
  | replacesSelf {i : Nat} {fork : Option Nat} (at' : s.pc = .replaceSelf i) :
      MainEffect s fork (s.call ⟨s.mainPid, .worker, (s.table.ppd i).id, (s.table.ppd i).pid⟩ .worker)
  | writes {field : Field} {row : Nat} {r : Registration} {next : Return} {fork : Option Nat}
      (at' : s.pc = .write field row r next) :
      MainEffect s fork { s with
        table := s.table.write row r field
        owner := if field = .pid then Function.update s.owner row (s.births r.pid) else s.owner
        pc := match field.next with
          | some field => .write field row r next
          | none => .create row r next }
  | creates {row : Nat} {r : Registration} {next : Return} {fork : Option Nat} (at' : s.pc = .create row r next) :
      MainEffect s fork { s.createFile r with table := s.table.openLog row r, pc := next.pc }

variable {s s' : State}

theorem mainStep_effect {fork : Option Nat} (edge : mainStep s fork = some s') : MainEffect s fork s' := by
  unfold mainStep at edge
  cases at' : s.pc with
  | fork id =>
    cases fork with
    | none =>
      simp only [at', Option.some.injEq] at edge
      exact edge ▸ .forkFails at'
    | some p =>
      simp only [at', Option.ite_none_right_eq_some, Option.some.injEq] at edge
      obtain ⟨free, rfl⟩ := edge
      exact .forks at' free
  | install id p =>
    simp only [at', Option.some.injEq] at edge
    exact edge ▸ .installs at'
  | registerMain id p =>
    simp only [at', Option.some.injEq] at edge
    exact edge ▸ .registersMain at'
  | registerWorker id p =>
    simp only [at', Option.some.injEq] at edge
    exact edge ▸ .registersWorker at'
  | forkWatchdog =>
    cases fork with
    | none =>
      simp only [at', Option.some.injEq] at edge
      exact edge ▸ .watchdogFails at'
    | some p =>
      simp only [at', Option.ite_none_right_eq_some, Option.some.injEq] at edge
      obtain ⟨free, rfl⟩ := edge
      exact .forksWatchdog at' free
  | scan i =>
    simp only [at'] at edge
    split_ifs at edge with inside dead
    · obtain ⟨worker, present, died⟩ := dead
      cases edge
      exact .finds at' inside worker present died
    · cases edge
      exact .passes at' inside dead
    · cases edge
      exact .restarts at' inside
  | refork i =>
    cases fork with
    | none =>
      simp only [at', Option.some.injEq] at edge
      exact edge ▸ .reforkFails at'
    | some p =>
      simp only [at', Option.ite_none_right_eq_some, Option.some.injEq] at edge
      obtain ⟨free, rfl⟩ := edge
      exact .reforks at' free
  | replace i p =>
    simp only [at', Option.some.injEq] at edge
    exact edge ▸ .replaces at'
  | replaceSelf i =>
    simp only [at', Option.some.injEq] at edge
    exact edge ▸ .replacesSelf at'
  | write field row r next =>
    simp only [at', Option.some.injEq] at edge
    exact edge ▸ .writes at'
  | create row r next =>
    simp only [at', Option.some.injEq] at edge
    exact edge ▸ .creates at'
  | worker | exited =>
    simp only [at'] at edge
    cases edge

/-- The same for the whole system. -/
inductive Effect (s : State) : Action → State → Prop where
  | main {fork : Option Nat} {s' : State} (idle : s.handler = none) (effect : MainEffect s fork s') :
      Effect s (.main fork) s'
  | delivers (pending : s.pending = true) (idle : s.handler = none) (running : s.pc ≠ .exited) :
      Effect s .deliver { s with pending := false, handler := some .waitpid }
  | ends (waiting : s.handler = some .waitpid) (nobody : s.zombies = ∅) :
      Effect s (.handler none) { s with handler := none }
  | reaps {q : Nat} (waiting : s.handler = some .waitpid) (zombie : q ∈ s.zombies) :
      Effect s (.handler (some q)) { s with zombies := s.zombies.erase q, handler := some (.found q) }
  | givesUp {q : Nat} {reaped : Option Nat} (looking : s.handler = some (.found q))
      (unknown : s.table.getProcDesc q = none) : Effect s (.handler reaped) { s with handler := none }
  | marks {q row : Nat} {reaped : Option Nat} (looking : s.handler = some (.found q))
      (found : s.table.getProcDesc q = some row) :
      Effect s (.handler reaped) { s with table := s.table.markDied row, handler := some .waitpid }
  | exits {p : Nat} (live : p ∈ s.live) (running : s.pc ≠ .exited) : Effect s (.exits p) (s.terminated p)
  | child {p : Nat} {c : Child} (present : s.child p = some c) (new : c.running = false) :
      Effect s (.child p) (childStep s p c)
  | hangup {p : Nat} {c : Child} (present : s.child p = some c) (registered : c.running = true) :
      Effect s (.hangup p) (unregisterStep s p c)
  | terminate {p : Nat} {c : Child} (present : s.child p = some c) (registered : c.running = true)
      (running : s.pc ≠ .exited) : Effect s (.terminate p) ((unregisterStep s p c).terminated p)

theorem handlerStep_effect {reaped : Option Nat} (edge : handlerStep s reaped = some s') :
    Effect s (.handler reaped) s' := by
  unfold handlerStep at edge
  split at edge
  · cases edge
  next waiting =>
    cases reaped with
    | none =>
      obtain ⟨nobody, edge⟩ := Option.ite_none_right_eq_some.mp edge
      cases edge
      exact .ends waiting nobody
    | some q =>
      obtain ⟨zombie, edge⟩ := Option.ite_none_right_eq_some.mp edge
      cases edge
      exact .reaps waiting zombie
  next q looking =>
    split at edge
    next unknown =>
      cases edge
      exact .givesUp looking unknown
    next row found =>
      cases edge
      exact .marks looking found

theorem step_effect {a : Action} (edge : Step s a s') : Effect s a s' := by
  unfold Step step at edge
  cases a with
  | main fork =>
    obtain ⟨idle, edge⟩ := Option.ite_none_right_eq_some.mp edge
    exact .main idle (mainStep_effect edge)
  | deliver =>
    obtain ⟨⟨pending, idle, running⟩, edge⟩ := Option.ite_none_right_eq_some.mp edge
    cases edge
    exact .delivers pending idle running
  | handler reaped => exact handlerStep_effect edge
  | exits p =>
    obtain ⟨⟨live, running⟩, edge⟩ := Option.ite_none_right_eq_some.mp edge
    cases edge
    exact .exits live running
  | child p =>
    simp only at edge
    split at edge
    next c present =>
      obtain ⟨new, edge⟩ := Option.ite_none_left_eq_some.mp edge
      cases edge
      exact .child present (Bool.not_eq_true _ ▸ new)
    next => cases edge
  | hangup p =>
    simp only at edge
    split at edge
    next c present =>
      obtain ⟨registered, edge⟩ := Option.ite_none_right_eq_some.mp edge
      cases edge
      exact .hangup present registered
    next => cases edge
  | terminate p =>
    simp only at edge
    split at edge
    next c present =>
      obtain ⟨⟨registered, running⟩, edge⟩ := Option.ite_none_right_eq_some.mp edge
      cases edge
      exact .terminate present registered running
    next => cases edge

/-! ## Schedules -/

/-- The statements of main in which it creates worker `id`, when all goes well. -/
def startWorker (id pid : Nat) : List Action :=
  .main (some pid) :: List.replicate (if id = 0 then 13 else 8) (.main none)

def crash (pid : Nat) : List Action :=
  [.exits pid, .deliver, .handler (some pid), .handler none, .handler none]

def startUp : List Action :=
  startWorker 0 100 ++ startWorker 1 101 ++ startWorker 2 102 ++ startWorker 3 103 ++ [.main (some 104)]

def reforkedWorker : List Action :=
  startUp ++ crash 100 ++ [.main none, .main none, .main (some 105)] ++ List.replicate 6 (.main none)

end Cs544.Fuzzer
