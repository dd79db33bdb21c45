import Mathlib.Algebra.Ring.Int.Defs
import Mathlib.Data.Finset.Card
import Mathlib.Data.List.FinRange
import Cs544.Library.BucketQueue
import Cs544.Library.Runs
import Cs544.Sched.Policy

/-! The run queues of real-time tasks, from `sched_rt.c` and `sched.c`.

Each CPU has a list of tasks for every priority, with counts of them, and a second list of
those that may be pushed to other CPUs. The root domain knows which CPUs are overloaded and
what priority each of them runs at. There is one root domain and there are no groups. What a
function does while it holds the locks it needs is one event; a function that lets go of them
comes as several events, and anything may happen in between. There is no result where a `WARN_ON` or
`BUG_ON` is hit. Run times, time slices and the queues of the other classes are left out.
-/

set_option autoImplicit false

namespace Cs544.Sched

open Cs544.Library

def maxRtPrio : Nat := 100

structure TaskStruct (n : Nat) where
  prio : Nat
  schedClass : SchedClass
  -- `task_cpu(p)`.
  cpu : Fin n
  onRq : Bool
  cpusAllowed : Finset (Fin n)
  -- `rt.nr_cpus_allowed`.
  nrCpusAllowed : Nat

def TaskStruct.setTaskCpu {n : Nat} (p : TaskStruct n) (newCpu : Fin n) : TaskStruct n := { p with cpu := newCpu }

/-- The priority a task gets, and the class that goes with it. -/
def TaskStruct.setPrio {n : Nat} (p : TaskStruct n) (prio : Nat) : TaskStruct n :=
  { p with prio, schedClass := if prio < maxRtPrio then .rt else .fair }

/-- `struct rq` with its `struct rt_rq`, and what the root domain has of the CPU. -/
structure RunQueue (τ : Type) where
  active : BucketQueue τ
  rtNrRunning : Nat
  highestPrioCurr : Nat
  highestPrioNext : Nat
  rtNrMigratory : Nat
  rtNrTotal : Nat
  overloaded : Bool
  -- A `plist`: sorted by priority, first come first served.
  pushableTasks : List τ
  curr : τ
  -- `TIF_NEED_RESCHED` of the running task.
  needResched : Bool
  postSchedule : Bool
  online : Bool
  -- The bit of the CPU in `rto_mask`, and what it has added to `rto_count`.
  rtoMask : Bool
  rtoCount : Int
  -- What was announced by `cpupri_set`; nothing is `CPUPRI_INVALID`.
  cpupri : Option Nat

variable {n : Nat} {τ : Type}

namespace RunQueue

/-! ## Overload -/

def rtSetOverload (rq : RunQueue τ) : RunQueue τ :=
  if rq.online then { rq with rtoMask := true, rtoCount := rq.rtoCount + 1 } else rq

def rtClearOverload (rq : RunQueue τ) : RunQueue τ :=
  if rq.online then { rq with rtoMask := false, rtoCount := rq.rtoCount - 1 } else rq

def updateRtMigration (rq : RunQueue τ) : RunQueue τ :=
  if rq.rtNrMigratory ≠ 0 ∧ rq.rtNrTotal > 1 then
    if rq.overloaded then rq else { rq.rtSetOverload with overloaded := true }
  else if rq.overloaded then { rq.rtClearOverload with overloaded := false }
  else rq

def ready (rq : RunQueue τ) : List τ := rq.active.toList maxRtPrio

def hasPushableTasks (rq : RunQueue τ) : Bool := !rq.pushableTasks.isEmpty

/-- `resched_task(rq->curr)`. -/
def resched (rq : RunQueue τ) : RunQueue τ := { rq with needResched := true }

section
variable (task : τ → TaskStruct n)

def incRtMigration (p : τ) (rq : RunQueue τ) : RunQueue τ :=
  updateRtMigration { rq with
    rtNrTotal := rq.rtNrTotal + 1
    rtNrMigratory := if (task p).nrCpusAllowed > 1 then rq.rtNrMigratory + 1 else rq.rtNrMigratory }

def decRtMigration (p : τ) (rq : RunQueue τ) : RunQueue τ :=
  updateRtMigration { rq with
    rtNrTotal := rq.rtNrTotal - 1
    rtNrMigratory := if (task p).nrCpusAllowed > 1 then rq.rtNrMigratory - 1 else rq.rtNrMigratory }

variable [DecidableEq τ] (i : Fin n)

/-! ## Priorities -/

def pickRtTask (rq : RunQueue τ) (cpu : Fin n) (p : τ) : Bool :=
  rq.curr ≠ p ∧ cpu ∈ (task p).cpusAllowed ∧ (task p).nrCpusAllowed > 1

def pickNextHighestTaskRt (rq : RunQueue τ) (cpu : Fin n) : Option τ :=
  rq.active.find maxRtPrio (pickRtTask task rq cpu)

def nextPrio (rq : RunQueue τ) : Nat :=
  match pickNextHighestTaskRt task rq i with
  | some next => if (task next).prio < maxRtPrio then (task next).prio else maxRtPrio
  | none => maxRtPrio

def incRtPrioSmp (prio prevPrio : Nat) (rq : RunQueue τ) : RunQueue τ :=
  if prio < prevPrio then
    { rq with highestPrioNext := prevPrio, cpupri := if rq.online then some prio else rq.cpupri }
  else if prio = rq.highestPrioCurr then { rq with highestPrioNext := prio }
  else if prio < rq.highestPrioNext then { rq with highestPrioNext := nextPrio task i rq }
  else rq

def decRtPrioSmp (prio prevPrio : Nat) (rq : RunQueue τ) : RunQueue τ :=
  let rq := if rq.rtNrRunning ≠ 0 ∧ prio ≤ rq.highestPrioNext then { rq with highestPrioNext := nextPrio task i rq }
    else rq
  if rq.online ∧ rq.highestPrioCurr ≠ prevPrio then { rq with cpupri := some rq.highestPrioCurr } else rq

def incRtPrio (prio : Nat) (rq : RunQueue τ) : RunQueue τ :=
  let prevPrio := rq.highestPrioCurr
  incRtPrioSmp task i prio prevPrio (if prio < prevPrio then { rq with highestPrioCurr := prio } else rq)

def decRtPrio (prio : Nat) (rq : RunQueue τ) : Option (RunQueue τ) :=
  let prevPrio := rq.highestPrioCurr
  if rq.rtNrRunning ≠ 0 then
    if prio < prevPrio then none
    else
      let rq := if prio = prevPrio then { rq with highestPrioCurr := rq.active.firstBit maxRtPrio } else rq
      some (decRtPrioSmp task i prio prevPrio rq)
  else some (decRtPrioSmp task i prio prevPrio { rq with highestPrioCurr := maxRtPrio })

def incRtTasks (p : τ) (rq : RunQueue τ) : Option (RunQueue τ) :=
  if (task p).prio < maxRtPrio then
    some (incRtMigration task p (incRtPrio task i (task p).prio { rq with rtNrRunning := rq.rtNrRunning + 1 }))
  else none

def decRtTasks (p : τ) (rq : RunQueue τ) : Option (RunQueue τ) :=
  if (task p).prio < maxRtPrio ∧ rq.rtNrRunning ≠ 0 then
    (decRtPrio task i (task p).prio { rq with rtNrRunning := rq.rtNrRunning - 1 }).map (decRtMigration task p)
  else none

/-! ## Adding and removing

`raw` stands for two underscores in front of a name. -/

def onRtRq (p : τ) (rq : RunQueue τ) : Bool := p ∈ rq.ready

def rawEnqueueRtEntity (p : τ) (head : Bool) (rq : RunQueue τ) : Option (RunQueue τ) :=
  incRtTasks task i p { rq with
    active := if head then rq.active.addHead (task p).prio p else rq.active.addTail (task p).prio p }

def rawDequeueRtEntity (p : τ) (rq : RunQueue τ) : Option (RunQueue τ) :=
  decRtTasks task i p { rq with active := rq.active.remove (task p).prio p }

/-- `dequeue_rt_stack`, and `dequeue_rt_entity` as there are no groups. -/
def dequeueRtEntity (p : τ) (rq : RunQueue τ) : Option (RunQueue τ) :=
  if onRtRq p rq then rawDequeueRtEntity task i p rq else some rq

def enqueueRtEntity (p : τ) (head : Bool) (rq : RunQueue τ) : Option (RunQueue τ) :=
  (dequeueRtEntity task i p rq).bind (rawEnqueueRtEntity task i p head)

def enqueuePushableTask (p : τ) (rq : RunQueue τ) : RunQueue τ :=
  { rq with pushableTasks := insertBehind (fun p => (task p).prio) p (rq.pushableTasks.erase p) }

def dequeuePushableTask (p : τ) (rq : RunQueue τ) : RunQueue τ :=
  { rq with pushableTasks := rq.pushableTasks.erase p }

def enqueueTaskRt (p : τ) (head : Bool) (rq : RunQueue τ) : Option (RunQueue τ) :=
  (enqueueRtEntity task i p head rq).map fun rq =>
    if rq.curr ≠ p ∧ (task p).nrCpusAllowed > 1 then enqueuePushableTask task p rq else rq

def dequeueTaskRt (p : τ) (rq : RunQueue τ) : Option (RunQueue τ) :=
  (dequeueRtEntity task i p rq).map (dequeuePushableTask p)

def requeueTaskRt (p : τ) (head : Bool) (rq : RunQueue τ) : RunQueue τ :=
  if onRtRq p rq then
    { rq with active := if head then rq.active.moveHead (task p).prio p else rq.active.moveTail (task p).prio p }
  else rq

def pickNextRtEntity (rq : RunQueue τ) : Option τ :=
  let idx := rq.active.firstBit maxRtPrio
  if idx ≥ maxRtPrio then none else (rq.active.queue idx).head?

def pickNextTaskRt (throttled : Bool) (rq : RunQueue τ) : Option (Option τ × RunQueue τ) :=
  if rq.rtNrRunning = 0 ∨ throttled then some (none, { rq with postSchedule := rq.hasPushableTasks })
  else (pickNextRtEntity rq).map fun p =>
    let rq := dequeuePushableTask p rq
    (some p, { rq with postSchedule := rq.hasPushableTasks })

def putPrevTaskRt (p : τ) (rq : RunQueue τ) : RunQueue τ :=
  if onRtRq p rq ∧ (task p).nrCpusAllowed > 1 then enqueuePushableTask task p rq else rq

def setCurrTaskRt (rq : RunQueue τ) : RunQueue τ := dequeuePushableTask rq.curr rq

/-! ## Classes

The other classes leave these queues alone. -/

def enqueueTask (p : τ) (head : Bool) (rq : RunQueue τ) : Option (RunQueue τ) :=
  if (task p).schedClass = .rt then enqueueTaskRt task i p head rq else some rq

def dequeueTask (p : τ) (rq : RunQueue τ) : Option (RunQueue τ) :=
  if (task p).schedClass = .rt then dequeueTaskRt task i p rq else some rq

def putPrevTask (p : τ) (rq : RunQueue τ) : RunQueue τ :=
  if (task p).schedClass = .rt then putPrevTaskRt task p rq else rq

def setCurrTask (rq : RunQueue τ) : RunQueue τ :=
  if (task rq.curr).schedClass = .rt then setCurrTaskRt rq else rq

end

def rqOnlineRt (rq : RunQueue τ) : RunQueue τ :=
  let rq := if rq.overloaded then rq.rtSetOverload else rq
  { rq with cpupri := some rq.highestPrioCurr }

def rqOfflineRt (rq : RunQueue τ) : RunQueue τ :=
  let rq := if rq.overloaded then rq.rtClearOverload else rq
  { rq with cpupri := none }

def initRtRq (idle : τ) : RunQueue τ where
  active := .empty maxRtPrio
  rtNrRunning := 0
  highestPrioCurr := maxRtPrio
  highestPrioNext := maxRtPrio
  rtNrMigratory := 0
  rtNrTotal := 0
  overloaded := false
  pushableTasks := []
  curr := idle
  needResched := false
  postSchedule := false
  online := false
  rtoMask := false
  rtoCount := 0
  cpupri := none

end RunQueue

/-! ## All CPUs -/

structure RootDomain (n : Nat) (τ : Type) where
  task : τ → TaskStruct n
  rq : Fin n → RunQueue τ

/-- `struct sched_domain`, with `SD_WAKE_AFFINE` of its flags. -/
structure SchedDomain (n : Nat) where
  wakeAffine : Bool
  span : Finset (Fin n)

/-- What is not decided here: the domains around each CPU, and `cpupri_find`. That finds CPUs
among the allowed ones, from the priorities announced. -/
structure Platform (n : Nat) where
  domains : Fin n → List (SchedDomain n)
  cpupriFind : (Fin n → Option Nat) → Nat → Finset (Fin n) → Option (Finset (Fin n))
  cpupriFind_spec : ∀ announced prio allowed mask, cpupriFind announced prio allowed = some mask →
    mask.Nonempty ∧ mask ⊆ allowed

namespace RootDomain

variable [DecidableEq τ]

def setTask (p : τ) (info : TaskStruct n) (rd : RootDomain n τ) : RootDomain n τ :=
  { rd with task := Function.update rd.task p info }

def setRq (i : Fin n) (rq : RunQueue τ) (rd : RootDomain n τ) : RootDomain n τ :=
  { rd with rq := Function.update rd.rq i rq }

def activateTask (p : τ) (head : Bool) (rd : RootDomain n τ) : Option (RootDomain n τ) :=
  let i := (rd.task p).cpu
  ((rd.rq i).enqueueTask rd.task i p head).map fun rq => rd.setRq i rq

def deactivateTask (p : τ) (rd : RootDomain n τ) : Option (RootDomain n τ) :=
  let i := (rd.task p).cpu
  ((rd.rq i).dequeueTask rd.task i p).map fun rq => rd.setRq i rq

/-! ## Tasks that wake up, sleep and are scheduled

A task that wakes up is on no run queue. `goToSleep` is the first part of `schedule`, for a
running task that goes to sleep; `requeueTask` is the call in `yield_task_rt`, `task_tick_rt`
and `check_preempt_equal_prio`. -/

def tryToWakeUp (p : τ) (cpu : Fin n) (rd : RootDomain n τ) : Option (RootDomain n τ) :=
  let rd := rd.setTask p ((rd.task p).setTaskCpu cpu)
  (rd.activateTask p false).map fun rd => rd.setTask p { rd.task p with onRq := true }

def goToSleep (i : Fin n) (rd : RootDomain n τ) : Option (RootDomain n τ) :=
  let prev := (rd.rq i).curr
  (rd.deactivateTask prev).map fun rd => rd.setTask prev { rd.task prev with onRq := false }

def schedule (i : Fin n) (stop : Option τ) (other : τ) (throttled : Bool) (rd : RootDomain n τ) :
    Option (RootDomain n τ) :=
  let rq := (rd.rq i).putPrevTask rd.task (rd.rq i).curr
  -- A task of the class above comes first; `other` is what the classes below would pick.
  match stop with
  | some next => some (rd.setRq i { rq with curr := next, needResched := false })
  | none => (rq.pickNextTaskRt throttled).map fun (next, rq) =>
      rd.setRq i { rq with curr := next.getD other, needResched := false }

def requeueTask (p : τ) (head : Bool) (rd : RootDomain n τ) : RootDomain n τ :=
  let i := (rd.task p).cpu
  rd.setRq i ((rd.rq i).requeueTaskRt rd.task p head)

/-! ## Tasks that change

`changePrio` is common to `rt_mutex_setprio` and the end of `__sched_setscheduler`. The class
of a running task is told before and after the change. -/

def changeTask (p : τ) (running : Bool) (prio : Nat) (rd : RootDomain n τ) : RootDomain n τ :=
  let i := (rd.task p).cpu
  let rd := if running then rd.setRq i ((rd.rq i).putPrevTask rd.task p) else rd
  let rd := rd.setTask p ((rd.task p).setPrio prio)
  if running then rd.setRq i ((rd.rq i).setCurrTask rd.task) else rd

def changePrio (p : τ) (prio : Nat) (head : Bool) (rd : RootDomain n τ) : Option (RootDomain n τ) :=
  let onRq := (rd.task p).onRq
  let running : Bool := (rd.rq (rd.task p).cpu).curr = p
  (if onRq then rd.deactivateTask p else some rd).bind fun rd =>
    let rd := rd.changeTask p running prio
    if onRq then rd.activateTask p head else some rd

def rtMutexSetprio (p : τ) (prio : Nat) (rd : RootDomain n τ) : Option (RootDomain n τ) :=
  rd.changePrio p prio ((rd.task p).prio < prio)

def schedSetscheduler (p : τ) (prio : Nat) (rd : RootDomain n τ) : Option (RootDomain n τ) :=
  rd.changePrio p prio false

/-- In `set_cpus_allowed_rt`, a task that waits is taken off the second list and put on it
again if it may still go elsewhere. -/
def offerAgain (task : τ → TaskStruct n) (p : τ) (weight : Nat) (rq : RunQueue τ) : RunQueue τ :=
  if rq.curr ≠ p then
    let rq := if (task p).nrCpusAllowed > 1 then rq.dequeuePushableTask p else rq
    if weight > 1 then rq.enqueuePushableTask task p else rq
  else rq

def setCpusAllowedRt (task : τ → TaskStruct n) (p : τ) (newMask : Finset (Fin n)) (rq : RunQueue τ) :
    Option (RunQueue τ) :=
  let weight := newMask.card
  let old := (task p).nrCpusAllowed
  if (task p).prio < maxRtPrio then
    if (task p).onRq ∧ weight ≠ old then
      let rq := offerAgain task p weight rq
      if old ≤ 1 ∧ weight > 1 then
        some (RunQueue.updateRtMigration { rq with rtNrMigratory := rq.rtNrMigratory + 1 })
      else if old > 1 ∧ weight ≤ 1 then
        if rq.rtNrMigratory = 0 then none
        else some (RunQueue.updateRtMigration { rq with rtNrMigratory := rq.rtNrMigratory - 1 })
      else some rq.updateRtMigration
    else some rq
  else none

def setCpusAllowed (p : τ) (newMask : Finset (Fin n)) (rd : RootDomain n τ) : Option (RootDomain n τ) :=
  let i := (rd.task p).cpu
  let info := { rd.task p with cpusAllowed := newMask, nrCpusAllowed := newMask.card }
  if (rd.task p).schedClass = .rt then
    (setCpusAllowedRt rd.task p newMask (rd.rq i)).map fun rq => (rd.setRq i rq).setTask p info
  else some (rd.setTask p info)

/-! ## Tasks that move

`push_rt_task` and `pull_rt_task` may let go of the lock of their run queue to get another
one. What they do from where both locks are held again is `pushRelocked` and `pullRelocked`,
with what was chosen before; `pushGivenUp` follows when no other run queue was found, and
`pushTo` is the end of every push. -/

/-- `deactivate_task`, `set_task_cpu` and `activate_task`. -/
def moveTask (p : τ) (dest : Fin n) (rd : RootDomain n τ) : Option (RootDomain n τ) :=
  (rd.deactivateTask p).bind fun rd => (rd.setTask p ((rd.task p).setTaskCpu dest)).activateTask p false

def migrateTask (p : τ) (src dest : Fin n) (rd : RootDomain n τ) : Option (RootDomain n τ) :=
  if (rd.task p).cpu = src ∧ dest ∈ (rd.task p).cpusAllowed ∧ (rd.task p).onRq then rd.moveTask p dest
  else some rd

def pickNextPushableTask (i : Fin n) (rd : RootDomain n τ) : Option (Option τ) :=
  match (rd.rq i).pushableTasks with
  | [] => some none
  | p :: _ =>
      if (rd.task p).cpu = i ∧ (rd.rq i).curr ≠ p ∧ (rd.task p).nrCpusAllowed > 1 ∧ (rd.task p).onRq ∧
          (rd.task p).prio < maxRtPrio then some (some p)
      else none

def bestCpu (thisCpu : Fin n) (lowestMask : Finset (Fin n)) (sd : SchedDomain n) : Option (Fin n) :=
  if sd.wakeAffine = false then none
  else if thisCpu ∈ lowestMask ∧ thisCpu ∈ sd.span then some thisCpu
  else (List.finRange n).find? fun j => j ∈ lowestMask ∧ j ∈ sd.span

/-- The election of a CPU in `find_lowest_rq`: the last one of the task, one of a domain around
it, this one or any. -/
def electCpu (domains : List (SchedDomain n)) (thisCpu cpu : Fin n) (lowestMask : Finset (Fin n)) : Option (Fin n) :=
  if cpu ∈ lowestMask then some cpu
  else
    match domains.findSome? (bestCpu thisCpu lowestMask) with
    | some best => some best
    | none => if thisCpu ∈ lowestMask then some thisCpu else (List.finRange n).find? fun j => j ∈ lowestMask

def findLowestRq (platform : Platform n) (thisCpu : Fin n) (p : τ) (rd : RootDomain n τ) : Option (Fin n) :=
  if (rd.task p).nrCpusAllowed = 1 then none
  else
    let cpu := (rd.task p).cpu
    (platform.cpupriFind (fun j => (rd.rq j).cpupri) (rd.task p).prio (rd.task p).cpusAllowed).bind
      (electCpu (platform.domains cpu) thisCpu cpu)

/-- `find_lock_lowest_rq` when it keeps the lock of its run queue. Then nothing changes from
one try to the next. -/
def findLockLowestRq (platform : Platform n) (thisCpu : Fin n) (p : τ) (i : Fin n) (rd : RootDomain n τ) :
    Option (Fin n) :=
  match rd.findLowestRq platform thisCpu p with
  | none => none
  | some cpu => if cpu ≠ i ∧ (rd.rq cpu).highestPrioCurr > (rd.task p).prio then some cpu else none

def pushTo (p : τ) (lowest : Fin n) (rd : RootDomain n τ) : Option (RootDomain n τ) :=
  (rd.moveTask p lowest).map fun rd => rd.setRq lowest (rd.rq lowest).resched

def pushRtTask (platform : Platform n) (thisCpu i : Fin n) (rd : RootDomain n τ) : Option (RootDomain n τ × Bool) :=
  if (rd.rq i).overloaded = false then some (rd, false)
  else
    match rd.pickNextPushableTask i with
    | none => none
    | some none => some (rd, false)
    | some (some nextTask) =>
        if nextTask = (rd.rq i).curr then none
        else if (rd.task nextTask).prio < (rd.task (rd.rq i).curr).prio then
          some (rd.setRq i (rd.rq i).resched, false)
        else
          match rd.findLockLowestRq platform thisCpu nextTask i with
          | none => some (rd.setRq i ((rd.rq i).dequeuePushableTask nextTask), true)
          | some lowest => (rd.pushTo nextTask lowest).map fun rd => (rd, true)

def pushRtTasks (platform : Platform n) (thisCpu i : Fin n) : Nat → RootDomain n τ → Option (RootDomain n τ)
  | 0, _ => none
  | rounds + 1, rd =>
      match rd.pushRtTask platform thisCpu i with
      | none => none
      | some (rd, true) => pushRtTasks platform thisCpu i rounds rd
      | some (rd, false) => some rd

def pushRelocked (i : Fin n) (p : τ) (lowest : Fin n) (rd : RootDomain n τ) : Option (RootDomain n τ) :=
  if (rd.task p).cpu ≠ i ∨ lowest ∉ (rd.task p).cpusAllowed ∨ (rd.rq i).curr = p ∨ (rd.task p).onRq = false then
    some rd
  else if (rd.rq lowest).highestPrioCurr > (rd.task p).prio then rd.pushTo p lowest
  else some rd

def pushGivenUp (i : Fin n) (p : τ) (rd : RootDomain n τ) : Option (RootDomain n τ) :=
  (rd.pickNextPushableTask i).map fun next =>
    if (rd.task p).cpu = i ∧ next = some p then rd.setRq i ((rd.rq i).dequeuePushableTask p) else rd

/-- An iteration of the loop in `pull_rt_task`, and whether it sets `ret`. -/
def pullRelocked (thisCpu cpu : Fin n) (rd : RootDomain n τ) : Option (RootDomain n τ × Bool) :=
  if (rd.rq cpu).rtNrRunning ≤ 1 then some (rd, false)
  else
    match (rd.rq cpu).pickNextHighestTaskRt rd.task thisCpu with
    | none => some (rd, false)
    | some p =>
        if (rd.task p).prio < (rd.rq thisCpu).highestPrioCurr then
          if (rd.rq cpu).curr = p ∨ (rd.task p).onRq = false then none
          else if (rd.task p).prio < (rd.task (rd.rq cpu).curr).prio then some (rd, false)
          else (rd.moveTask p thisCpu).map fun rd => (rd, true)
        else some (rd, false)

def pullFrom (thisCpu cpu : Fin n) (rd : RootDomain n τ) : Option (RootDomain n τ × Bool) :=
  if thisCpu = cpu ∨ (rd.rq cpu).highestPrioNext ≥ (rd.rq thisCpu).highestPrioCurr then some (rd, false)
  else rd.pullRelocked thisCpu cpu

def pullLoop (thisCpu : Fin n) : List (Fin n) → RootDomain n τ → Option (RootDomain n τ × Bool)
  | [], rd => some (rd, false)
  | cpu :: rest, rd =>
      (rd.pullFrom thisCpu cpu).bind fun (rd, here) =>
        (pullLoop thisCpu rest rd).map fun (rd, later) => (rd, here || later)

def rtoCount (rd : RootDomain n τ) : Int := ((List.finRange n).map fun i => (rd.rq i).rtoCount).sum

def rtoMask (rd : RootDomain n τ) : List (Fin n) := (List.finRange n).filter fun i => (rd.rq i).rtoMask

def pullRtTask (thisCpu : Fin n) (rd : RootDomain n τ) : Option (RootDomain n τ × Bool) :=
  if rd.rtoCount = 0 then some (rd, false) else pullLoop thisCpu rd.rtoMask rd

/-! ## CPUs that come and go -/

def setRqOnline (i : Fin n) (rd : RootDomain n τ) : RootDomain n τ :=
  if (rd.rq i).online then rd else rd.setRq i (RunQueue.rqOnlineRt { rd.rq i with online := true })

def setRqOffline (i : Fin n) (rd : RootDomain n τ) : RootDomain n τ :=
  if (rd.rq i).online then rd.setRq i { (rd.rq i).rqOfflineRt with online := false } else rd

end RootDomain

/-! ## Runs -/

inductive RtEvent (n : Nat) (τ : Type) where
  | wakeUp (p : τ) (cpu : Fin n)
  | sleep (i : Fin n)
  | schedule (i : Fin n) (stop : Option τ) (other : τ) (throttled : Bool)
  | requeue (p : τ) (head : Bool)
  | setprio (p : τ) (prio : Nat)
  | setscheduler (p : τ) (prio : Nat)
  | setCpusAllowed (p : τ) (newMask : Finset (Fin n))
  | migrate (p : τ) (src dest : Fin n)
  | push (thisCpu i : Fin n)
  | pushRelocked (i : Fin n) (p : τ) (lowest : Fin n)
  | pushGivenUp (i : Fin n) (p : τ)
  | pull (thisCpu cpu : Fin n)
  | pullRelocked (thisCpu cpu : Fin n)
  | online (i : Fin n)
  | offline (i : Fin n)

variable [DecidableEq τ]

/-- When an event may happen. A task that wakes up is not running any more (`on_cpu`), a task
that is migrated has made way for the stopper, and only tasks of the two classes have their
priority changed. -/
def RtEvent.Allowed (rd : RootDomain n τ) : RtEvent n τ → Prop
  | wakeUp p _ => (rd.task p).onRq = false ∧ ∀ i, (rd.rq i).curr ≠ p
  | sleep i => (rd.task (rd.rq i).curr).onRq = true
  | schedule i stop other _ => ∀ p, p = other ∨ some p = stop → (rd.task p).schedClass ≠ .rt ∧ (rd.task p).cpu = i
  | setprio p _ | setscheduler p _ => (rd.task p).schedClass = .rt ∨ (rd.task p).schedClass = .fair
  | migrate p src _ => (rd.rq src).curr ≠ p
  | pushRelocked i _ lowest => lowest ≠ i
  | pullRelocked thisCpu cpu => thisCpu ≠ cpu
  | requeue .. | setCpusAllowed .. | push .. | pushGivenUp .. | pull .. | online .. | offline .. => True

def RtEvent.perform (platform : Platform n) (rd : RootDomain n τ) : RtEvent n τ → Option (RootDomain n τ)
  | wakeUp p cpu => rd.tryToWakeUp p cpu
  | sleep i => rd.goToSleep i
  | schedule i stop other throttled => rd.schedule i stop other throttled
  | requeue p head => some (rd.requeueTask p head)
  | setprio p prio => rd.rtMutexSetprio p prio
  | setscheduler p prio => rd.schedSetscheduler p prio
  | setCpusAllowed p newMask => rd.setCpusAllowed p newMask
  | migrate p src dest => rd.migrateTask p src dest
  | push thisCpu i => (rd.pushRtTask platform thisCpu i).map Prod.fst
  | pushRelocked i p lowest => rd.pushRelocked i p lowest
  | pushGivenUp i p => rd.pushGivenUp i p
  | pull thisCpu cpu => (rd.pullFrom thisCpu cpu).map Prod.fst
  | pullRelocked thisCpu cpu => (rd.pullRelocked thisCpu cpu).map Prod.fst
  | online i => some (rd.setRqOnline i)
  | offline i => some (rd.setRqOffline i)

def RtStep (platform : Platform n) (rd : RootDomain n τ) (e : RtEvent n τ) (next : RootDomain n τ) : Prop :=
  e.Allowed rd ∧ e.perform platform rd = some next

def schedInit (task : τ → TaskStruct n) (idle : Fin n → τ) : RootDomain n τ where
  task := task
  rq i := RunQueue.initRtRq (idle i)

end Cs544.Sched
