import Cs544.Library.Runs
import Cs544.Library.Tokens

/-! The run time of real-time tasks, from `sched_rt.c`.

Every CPU may spend a run time on real-time tasks in each period. A CPU that needs more
borrows from the others of a root domain; one that goes offline takes back what it has
lent. There is one bandwidth, as without groups. `self` is the CPU that executes a
function. What happens while `rt_runtime_lock` is held is one step, and what is done to
the clocks of the run queues is left out.
-/

set_option autoImplicit false

namespace Cs544.Sched

def runtimeInf : Int := 2 ^ 64 - 1

def s64 (x : Int) : Int := x.bmod (2 ^ 64)

structure RtRq where
  rtRuntime : Int
  rtTime : Int
  rtThrottled : Bool
  rtNrRunning : Nat
  -- The root domain.
  rd : Nat
  -- In `cpu_online_mask`.
  online : Bool
  -- Whether `resched_task` was called for its running task.
  needResched : Bool
  deriving DecidableEq, Repr

structure RtBandwidth where
  rtPeriod : Int
  rtRuntime : Int
  deriving DecidableEq, Repr

inductive Handler where
  | idle
  | written (oldPeriod oldRuntime : BitVec 32)
  | constrained
  | halfDefined
  deriving DecidableEq, Repr

structure Bandwidth (n : Nat) where
  sysctlSchedRtPeriod : BitVec 32
  sysctlSchedRtRuntime : BitVec 32
  handler : Handler
  -- `def_rt_bandwidth`.
  rtB : RtBandwidth
  schedulerRunning : Bool
  rq : Fin n → RtRq

variable {n : Nat}

/-- `sched_rt_rq_enqueue`. -/
def RtRq.enqueue (rq : RtRq) : RtRq := if rq.rtNrRunning ≠ 0 then { rq with needResched := true } else rq

namespace Bandwidth

variable (s : Bandwidth n)

def rtBandwidthEnabled : Bool := 0 ≤ s.sysctlSchedRtRuntime.toInt

def globalRtPeriod : Int := s.sysctlSchedRtPeriod.toNat * 1000

def globalRtRuntime : Int :=
  if s.sysctlSchedRtRuntime.toInt < 0 then runtimeInf else s.sysctlSchedRtRuntime.toInt * 1000

def span (rd : Nat) : List (Fin n) := (List.finRange n).filter fun i => (s.rq i).rd = rd

def cpuOnlineMask : List (Fin n) := (List.finRange n).filter fun i => (s.rq i).online

def set (i : Fin n) (rq : RtRq) : Bandwidth n := { s with rq := Function.update s.rq i rq }

def addRuntime (i : Fin n) (diff : Int) : Bandwidth n :=
  s.set i { s.rq i with rtRuntime := (s.rq i).rtRuntime + diff }

end Bandwidth

/-! ## Borrowing -/

/-- What a run queue gets of the spare time of another one. -/
def borrowedTime (s : Bandwidth n) (weight : Nat) (own iter : Fin n) : Int :=
  let diff := s64 ((s.rq iter).rtRuntime - (s.rq iter).rtTime) / weight
  if (s.rq own).rtRuntime + diff > s.rtB.rtPeriod then s.rtB.rtPeriod - (s.rq own).rtRuntime else diff

def balanceLoop (weight : Nat) (own : Fin n) : List (Fin n) → Bandwidth n → Bandwidth n
  | [], s => s
  | iter :: rest, s =>
      if iter = own ∨ (s.rq iter).rtRuntime = runtimeInf then balanceLoop weight own rest s
      else if s64 ((s.rq iter).rtRuntime - (s.rq iter).rtTime) > 0 then
        let diff := borrowedTime s weight own iter
        let s := (s.addRuntime iter (-diff)).addRuntime own diff
        if (s.rq own).rtRuntime = s.rtB.rtPeriod then s else balanceLoop weight own rest s
      else balanceLoop weight own rest s

def doBalanceRuntime (self own : Fin n) (s : Bandwidth n) : Bandwidth n :=
  let span := s.span (s.rq self).rd
  balanceLoop span.length own span s

def balanceRuntime (self own : Fin n) (s : Bandwidth n) : Bandwidth n :=
  if (s.rq own).rtTime > (s.rq own).rtRuntime then doBalanceRuntime self own s else s

/-- `sched_rt_runtime_exceeded` after it has balanced. -/
def throttle (i : Fin n) (s : Bandwidth n) : Bandwidth n × Bool :=
  if (s.rq i).rtRuntime = runtimeInf then (s, false)
  else if (s.rq i).rtTime > (s.rq i).rtRuntime then (s.set i { s.rq i with rtThrottled := true }, true)
  else (s, false)

def schedRtRuntimeExceeded (self i : Fin n) (s : Bandwidth n) : Bandwidth n × Bool :=
  if (s.rq i).rtThrottled then (s, true)
  else if (s.rq i).rtRuntime ≥ s.rtB.rtPeriod then (s, false)
  else throttle i (balanceRuntime self i s)

def chargeTime (i : Fin n) (deltaExec : Int) (s : Bandwidth n) : Bandwidth n :=
  s.set i { s.rq i with rtTime := (s.rq i).rtTime + deltaExec }

def resched (i : Fin n) (s : Bandwidth n) : Bandwidth n := s.set i { s.rq i with needResched := true }

def updateCurrRt (self i : Fin n) (deltaExec : Int) (s : Bandwidth n) : Bandwidth n :=
  if s.rtBandwidthEnabled = false ∨ (s.rq i).rtRuntime = runtimeInf then s
  else
    let (s, exceeded) := schedRtRuntimeExceeded self i (chargeTime i deltaExec s)
    if exceeded then resched i s else s

/-! ## The period -/

def refillRuntime (self i : Fin n) (s : Bandwidth n) : Bandwidth n :=
  if (s.rq i).rtThrottled then balanceRuntime self i s else s

/-- The run time of the periods is taken off the time of a run queue, which is released when
there is run time left. -/
def forgiveTime (overrun : Int) (rq : RtRq) : RtRq :=
  let rtTime := rq.rtTime - min rq.rtTime (overrun * rq.rtRuntime % 2 ^ 64)
  if rq.rtThrottled ∧ rtTime < rq.rtRuntime then { rq with rtTime, rtThrottled := false }.enqueue
  else { rq with rtTime }

/-- An iteration of the loop in `do_sched_rt_period_timer`, and whether `idle` stays. -/
def periodTick (self : Fin n) (overrun : Int) (i : Fin n) (s : Bandwidth n) : Bandwidth n × Bool :=
  if (s.rq i).rtTime ≠ 0 then
    let s := refillRuntime self i s
    let rq := forgiveTime overrun (s.rq i)
    (s.set i rq, decide (rq.rtTime = 0 ∧ rq.rtNrRunning = 0))
  else if (s.rq i).rtNrRunning ≠ 0 then
    (if (s.rq i).rtThrottled then s else s.set i (s.rq i).enqueue, false)
  else (s, true)

def periodLoop (self : Fin n) (overrun : Int) : List (Fin n) → Bandwidth n → Bandwidth n × Bool
  | [], s => (s, true)
  | i :: rest, s =>
      let (s, idle) := periodTick self overrun i s
      let (s, others) := periodLoop self overrun rest s
      (s, idle && others)

-- Without groups `sched_rt_period_mask()` is `cpu_online_mask`, whatever the root domains are.
def doSchedRtPeriodTimer (self : Fin n) (overrun : Int) (s : Bandwidth n) : Bandwidth n × Bool :=
  if s.rtBandwidthEnabled = false ∨ s.rtB.rtRuntime = runtimeInf then (s, true)
  else periodLoop self overrun s.cpuOnlineMask s

/-! ## CPUs that come and go

A CPU that goes takes back what it has lent, or returns what it has borrowed. There is no
result if `BUG_ON(want)` is hit. -/

def reclaimed (want : Int) (rq : RtRq) : Int := if want > 0 then min (s64 rq.rtRuntime) want else want

def reclaimLoop (own : Fin n) : List (Fin n) → Int → Bandwidth n → Bandwidth n × Int
  | [], want, s => (s, want)
  | iter :: rest, want, s =>
      if iter = own ∨ (s.rq iter).rtRuntime = runtimeInf then reclaimLoop own rest want s
      else
        let diff := reclaimed want (s.rq iter)
        let s := s.addRuntime iter (-diff)
        let want := want - diff
        if want = 0 then (s, want) else reclaimLoop own rest want s

def disableRuntime (i : Fin n) (s : Bandwidth n) : Option (Bandwidth n) :=
  if s.schedulerRunning = false then some s
  else if (s.rq i).rtRuntime = runtimeInf ∨ (s.rq i).rtRuntime = s.rtB.rtRuntime then
    some (s.set i { s.rq i with rtRuntime := runtimeInf })
  else
    let (s, want) := reclaimLoop i (s.span (s.rq i).rd) (s64 (s.rtB.rtRuntime - (s.rq i).rtRuntime)) s
    if want ≠ 0 then none else some (s.set i { s.rq i with rtRuntime := runtimeInf })

def enableRuntime (i : Fin n) (s : Bandwidth n) : Bandwidth n :=
  if s.schedulerRunning = false then s
  else s.set i { s.rq i with rtRuntime := s.rtB.rtRuntime, rtTime := 0, rtThrottled := false }

/-! ## `sched_rt_handler`

It holds its mutex for several steps; `Handler` says how far it has come. -/

/-- `sched_rt_global_constraints`, with what the handler does when it fails. -/
def schedRtGlobalConstraints (oldPeriod oldRuntime : BitVec 32) (s : Bandwidth n) : Bandwidth n :=
  if s.sysctlSchedRtPeriod = 0 ∨ s.sysctlSchedRtRuntime = 0 then
    { s with sysctlSchedRtPeriod := oldPeriod, sysctlSchedRtRuntime := oldRuntime, handler := .idle }
  else { s with handler := .constrained, rq := fun i => { s.rq i with rtRuntime := s.globalRtRuntime } }

def schedRtHandler (s : Bandwidth n) : Bandwidth n :=
  match s.handler with
  | .idle => s
  | .written oldPeriod oldRuntime => schedRtGlobalConstraints oldPeriod oldRuntime s
  | .constrained => { s with handler := .halfDefined, rtB := { s.rtB with rtRuntime := s.globalRtRuntime } }
  | .halfDefined => { s with handler := .idle, rtB := { s.rtB with rtPeriod := s.globalRtPeriod } }

/-! ## Runs -/

inductive BandwidthEvent (n : Nat) where
  -- The parts of `update_curr_rt`.
  | charge (i : Fin n) (deltaExec : Int)
  | balance (self own : Fin n)
  | throttle (i : Fin n)
  | resched (i : Fin n)
  -- The period timer after it has borrowed, or for a run queue without time.
  | forgive (i : Fin n) (overrun : Int)
  | requeue (i : Fin n)
  | disable (i : Fin n)
  | enable (i : Fin n)
  -- `proc_dointvec` in `sched_rt_handler`, and the rest of it.
  | proc (period runtime : BitVec 32)
  | handler
  | boot
  -- `rq_attach_root`, between `set_rq_offline` and `set_rq_online`.
  | attach (i : Fin n) (rd : Nat)
  | setOnline (i : Fin n) (online : Bool)
  -- Real-time tasks go to sleep or wake up.
  | tasks (i : Fin n) (rtNrRunning : Nat)

/-- The run time that every CPU was given last. -/
def Bandwidth.given (s : Bandwidth n) : Int :=
  if s.handler = .constrained then s.globalRtRuntime else s.rtB.rtRuntime

def Settled (s : Bandwidth n) (i : Fin n) : Prop := (s.rq i).rtRuntime = runtimeInf ∨ (s.rq i).rtRuntime = s.given

/-- When an event may happen. Clocks stay below `2 ^ 63`, CPUs do not come or go while
`sched_rt_handler` has set their run times and not yet its own, and one that has lent or
borrowed is not enabled again and does not leave its root domain. -/
def BandwidthEvent.Allowed (s : Bandwidth n) : BandwidthEvent n → Prop
  | charge i deltaExec => 0 ≤ deltaExec ∧ (s.rq i).rtTime + deltaExec < 2 ^ 63
  -- `rq->lock` is held since the time was found to exceed a run time.
  | balance _ own => (s.rq own).rtRuntime = runtimeInf → s.given = runtimeInf
  | disable _ => s.handler ≠ .constrained
  | enable i => s.handler ≠ .constrained ∧ Settled s i
  | attach i _ => Settled s i
  | proc _ _ => s.handler = .idle
  | throttle _ | resched _ | forgive _ _ | requeue _ | handler | boot | setOnline _ _ | tasks _ _ => True

instance (s : Bandwidth n) (i : Fin n) : Decidable (Settled s i) := inferInstanceAs (Decidable (_ ∨ _))

instance (s : Bandwidth n) : (e : BandwidthEvent n) → Decidable (e.Allowed s)
  | .charge .. | .enable _ => inferInstanceAs (Decidable (_ ∧ _))
  | .balance .. => inferInstanceAs (Decidable (_ → _))
  | .disable _ => inferInstanceAs (Decidable (_ ≠ _))
  | .attach i _ => inferInstanceAs (Decidable (Settled s i))
  | .proc .. => inferInstanceAs (Decidable (_ = _))
  | .throttle _ | .resched _ | .forgive .. | .requeue _ | .handler | .boot | .setOnline .. | .tasks .. =>
      inferInstanceAs (Decidable True)

def BandwidthEvent.perform (s : Bandwidth n) : BandwidthEvent n → Option (Bandwidth n)
  | charge i deltaExec => some (chargeTime i deltaExec s)
  | balance self own => some (doBalanceRuntime self own s)
  | throttle i => some (Sched.throttle i s).1
  | resched i => some (Sched.resched i s)
  | forgive i overrun => some (s.set i (forgiveTime overrun (s.rq i)))
  | requeue i => some (s.set i (s.rq i).enqueue)
  | disable i => disableRuntime i s
  | enable i => some (enableRuntime i s)
  | proc period runtime =>
      some { s with sysctlSchedRtPeriod := period, sysctlSchedRtRuntime := runtime
                    handler := .written s.sysctlSchedRtPeriod s.sysctlSchedRtRuntime }
  | handler => some (schedRtHandler s)
  | boot => some { s with schedulerRunning := true }
  | attach i rd => some (s.set i { s.rq i with rd })
  | setOnline i online => some (s.set i { s.rq i with online })
  | tasks i rtNrRunning => some (s.set i { s.rq i with rtNrRunning })

def BandwidthStep (s : Bandwidth n) (e : BandwidthEvent n) (t : Bandwidth n) : Prop :=
  e.Allowed s ∧ e.perform s = some t

/-- A CPU with a limit borrows only while a CPU of its own root domain executes that. -/
def BandwidthEvent.Within (s : Bandwidth n) : BandwidthEvent n → Prop
  | balance self own => (s.rq own).rtRuntime ≠ runtimeInf → (s.rq self).rd = (s.rq own).rd
  | _ => True

instance (s : Bandwidth n) : (e : BandwidthEvent n) → Decidable (e.Within s)
  | .balance .. => inferInstanceAs (Decidable (_ → _))
  | .charge .. | .throttle _ | .resched _ | .forgive .. | .requeue _ | .disable _ | .enable _ | .proc .. | .handler
  | .boot | .attach .. | .setOnline .. | .tasks .. => inferInstanceAs (Decidable True)

/-- The bandwidth that the two variables stand for, and `init_rt_rq` for every CPU. -/
def initRtRq (period runtime : BitVec 32) (rd : Fin n → Nat) : Bandwidth n :=
  let rtRuntime := if runtime.toInt < 0 then runtimeInf else runtime.toInt * 1000
  { sysctlSchedRtPeriod := period
    sysctlSchedRtRuntime := runtime
    handler := .idle
    rtB := ⟨period.toNat * 1000, rtRuntime⟩
    schedulerRunning := false
    rq := fun i => ⟨rtRuntime, 0, false, 0, rd i, false, false⟩ }

end Cs544.Sched
