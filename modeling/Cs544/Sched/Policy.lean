import Mathlib.Tactic.Common

/-! Policies and priorities of tasks, from `sched.c`.

A change of policy is checked before it is made. What the kernel knows of the caller, and
what code outside the file answers, are arguments. The run queues around the change and the
load weights are left out.
-/

set_option autoImplicit false

namespace Cs544.Sched

/-! ## Constants of `linux/sched.h` -/

abbrev Policy := BitVec 32

def schedNormal : Policy := 0
def schedFifo : Policy := 1
def schedRr : Policy := 2
def schedBatch : Policy := 3
def schedIdle : Policy := 5

/-- `SCHED_RESET_ON_FORK`, a bit that may be set in a policy. -/
def schedResetOnFork : Policy := 0x40000000

/-- `MAX_USER_RT_PRIO` and `MAX_RT_PRIO`. -/
structure Prios where
  maxUserRtPrio : Int
  maxRtPrio : Int
  positive : 0 < maxUserRtPrio
  user_le : maxUserRtPrio ≤ maxRtPrio

def linuxPrios : Prios := ⟨100, 100, by decide, by decide⟩

def einval : Int := 22

def eperm : Int := 1

/-! ## Tasks -/

inductive SchedClass where
  | stop
  | rt
  | fair
  | idle
  deriving DecidableEq, Repr

structure Task where
  policy : Policy
  rtPriority : Int
  staticPrio : Int
  normalPrio : Int
  prio : Int
  schedClass : SchedClass
  schedResetOnFork : Bool
  -- Whether the task has an address space.
  mm : Bool
  deriving DecidableEq, Repr

variable (h : Prios)

def niceToPrio (nice : Int) : Int := h.maxRtPrio + nice + 20

def prioToNice (prio : Int) : Int := prio - h.maxRtPrio - 20

def taskNice (p : Task) : Int := prioToNice h p.staticPrio

def rtPrio (prio : Int) : Bool := prio < h.maxRtPrio

/-- `rt_policy`, which finds no policy to be one of real time. -/
def rtPolicy (_policy : Policy) : Bool := false

/-- `task_has_rt_policy`. The `policy` it compares is a name that is not declared there, so
what it stands for is an argument. -/
def taskHasRtPolicy (policy : Policy) (p : Task) : Bool :=
  if policy = schedFifo ∨ policy = schedRr then true else rtPolicy p.policy

def normalPrio (undeclared : Policy) (p : Task) : Int :=
  if taskHasRtPolicy undeclared p then h.maxRtPrio - 1 - p.rtPriority else p.staticPrio

/-! ## Changing the policy -/

/-- What decides about a call besides its arguments. -/
structure Caller where
  user : Bool
  -- `capable(CAP_SYS_NICE)`.
  capable : Bool
  rlimRtprio : Int
  -- `can_nice(p, TASK_NICE(p))`.
  canNice : Bool
  -- `check_same_owner(p)`.
  sameOwner : Bool
  -- What `security_task_setscheduler` returns.
  security : Int
  -- `p == rq->stop`.
  stop : Bool
  -- The group of the task has no real-time runtime.
  noRuntime : Bool
  -- The name `policy` in `task_has_rt_policy`.
  undeclared : Policy
  -- `rt_mutex_getprio`.
  rtMutexGetprio : Task → Int

variable (caller : Caller) (p : Task)

def setScheduler (policy : Policy) (prio : Int) : Task :=
  let p := { p with policy, rtPriority := prio }
  let p := { p with normalPrio := normalPrio h caller.undeclared p }
  let p := { p with prio := caller.rtMutexGetprio p }
  { p with schedClass := if rtPrio h p.prio then .rt else .fair }

/-- The checks a caller without `CAP_SYS_NICE` has to pass. -/
def refused (policy : Policy) (resetOnFork : Bool) (prio : Int) : Bool :=
  (rtPolicy policy && (policy != p.policy && caller.rlimRtprio == 0 ||
    prio > p.rtPriority && prio > caller.rlimRtprio)) ||
  (p.policy == schedIdle && policy != schedIdle && !caller.canNice) ||
  !caller.sameOwner ||
  (p.schedResetOnFork && !resetOnFork)

def validPrio (prio : Int) : Bool :=
  !(prio < 0 || p.mm && prio > h.maxUserRtPrio - 1 || !p.mm && prio > h.maxRtPrio - 1)

/-- `__sched_setscheduler` from the check of the priority on. Nothing else changes the task
meanwhile, so that the policy has not to be checked again. -/
def checkedSetscheduler (policy : Policy) (resetOnFork : Bool) (prio : Int) : Int × Task :=
  if !validPrio h p prio then (-einval, p)
  else if rtPolicy policy != (prio != 0) then (-einval, p)
  else if caller.user && !caller.capable && refused caller p policy resetOnFork prio then (-eperm, p)
  else if caller.user && caller.security != 0 then (caller.security, p)
  else if caller.stop then (-einval, p)
  else if policy = p.policy ∧ (rtPolicy policy = false ∨ prio = p.rtPriority) then (0, p)
  else if caller.user && rtPolicy policy && caller.noRuntime then (-eperm, p)
  else (0, setScheduler h caller { p with schedResetOnFork := resetOnFork } policy prio)

def schedSetscheduler (policy : Policy) (prio : Int) : Int × Task :=
  if policy.slt 0 then checkedSetscheduler h caller p p.policy p.schedResetOnFork prio
  else
    let resetOnFork := policy &&& schedResetOnFork != 0
    let policy := policy &&& ~~~schedResetOnFork
    if policy ≠ schedFifo ∧ policy ≠ schedRr ∧ policy ≠ schedNormal ∧ policy ≠ schedBatch ∧ policy ≠ schedIdle then
      (-einval, p)
    else checkedSetscheduler h caller p policy resetOnFork prio

def schedGetPriorityMax (policy : Policy) : Int :=
  if policy = schedFifo ∨ policy = schedRr then h.maxUserRtPrio - 1
  else if policy = schedNormal ∨ policy = schedBatch ∨ policy = schedIdle then 0
  else -einval

def schedGetPriorityMin (policy : Policy) : Int :=
  if policy = schedFifo ∨ policy = schedRr then 1
  else if policy = schedNormal ∨ policy = schedBatch ∨ policy = schedIdle then 0
  else -einval

/-! ## What is advertised and what is accepted -/

def RealTime (policy : Policy) : Prop := policy = schedFifo ∨ policy = schedRr

def Fair (policy : Policy) : Prop := policy = schedNormal ∨ policy = schedBatch ∨ policy = schedIdle

instance (policy : Policy) : Decidable (RealTime policy) := inferInstanceAs (Decidable (_ ∨ _))

instance (policy : Policy) : Decidable (Fair policy) := inferInstanceAs (Decidable (_ ∨ _))

/-- The two system calls give the policy a range, and the priority is in it. -/
def Advertised (policy : Policy) (prio : Int) : Prop :=
  0 ≤ schedGetPriorityMin policy ∧ 0 ≤ schedGetPriorityMax h policy ∧
    schedGetPriorityMin policy ≤ prio ∧ prio ≤ schedGetPriorityMax h policy

/-- Nothing but the parameters can make the call invalid. -/
structure Caller.Permitted (caller : Caller) : Prop where
  stop : caller.stop = false
  security : caller.security ≠ -einval

variable {h caller p} {policy : Policy} {prio : Int}

theorem and_not_of_and_eq_zero {flag : Policy} (clear : policy &&& flag = 0) : policy &&& ~~~flag = policy := by
  apply BitVec.eq_of_getElem_eq
  intro i inside
  have bit := congrArg (fun word : Policy => word[i]) clear
  simp only [BitVec.getElem_and, BitVec.getElem_not] at bit ⊢
  cases set : policy[i] with
  | false => rfl
  | true =>
    rw [set] at bit
    simp_all

theorem RealTime.not_fair (realTime : RealTime policy) : ¬ Fair policy := by
  rcases realTime with rfl | rfl <;> decide

theorem advertised_iff :
    Advertised h policy prio ↔
      (RealTime policy ∧ 1 ≤ prio ∧ prio ≤ h.maxUserRtPrio - 1) ∨ (Fair policy ∧ prio = 0) := by
  have positive := h.positive
  by_cases realTime : RealTime policy
  · have low : schedGetPriorityMin policy = 1 := if_pos realTime
    have high : schedGetPriorityMax h policy = h.maxUserRtPrio - 1 := if_pos realTime
    simp only [Advertised, low, high, realTime, realTime.not_fair, true_and, false_and, or_false]
    omega
  · by_cases fair : Fair policy
    · have low : schedGetPriorityMin policy = 0 := (if_neg realTime).trans (if_pos fair)
      have high : schedGetPriorityMax h policy = 0 := (if_neg realTime).trans (if_pos fair)
      simp only [Advertised, low, high, realTime, fair, true_and, false_and, false_or]
      omega
    · have low : schedGetPriorityMin policy = -einval := (if_neg realTime).trans (if_neg fair)
      simp only [Advertised, low, realTime, fair, einval, false_and, or_false, iff_false]
      omega

/-- Behind the filter of policies, only the checks of the priority make the call invalid. -/
theorem checkedSetscheduler_einval_iff (permitted : caller.Permitted) (resetOnFork : Bool) :
    (checkedSetscheduler h caller p policy resetOnFork prio).1 = -einval ↔ validPrio h p prio = false ∨ prio ≠ 0 := by
  unfold checkedSetscheduler
  have other : -eperm ≠ -einval := by decide
  have success : (0 : Int) ≠ -einval := by decide
  have security := permitted.security
  split_ifs <;> simp_all [rtPolicy, permitted.stop]

theorem schedSetscheduler_einval_iff (permitted : caller.Permitted) (mm : p.mm = true)
    (nonneg : policy.slt 0 = false) (clear : policy &&& schedResetOnFork = 0) :
    (schedSetscheduler h caller p policy prio).1 ≠ -einval ↔ (RealTime policy ∨ Fair policy) ∧ prio = 0 := by
  have positive := h.positive
  have valid : validPrio h p 0 = true := by simp [validPrio, mm]; omega
  simp only [schedSetscheduler, nonneg, Bool.false_eq_true, if_false, and_not_of_and_eq_zero clear]
  split_ifs with unknown
  · simp only [RealTime, Fair]
    tauto
  · rw [ne_eq, checkedSetscheduler_einval_iff permitted]
    have known : RealTime policy ∨ Fair policy := by
      simp only [RealTime, Fair]
      tauto
    constructor
    · intro accepted
      exact ⟨known, by tauto⟩
    · rintro ⟨_, rfl⟩
      simp [valid]

/-- What is accepted is what is advertised, except that of the real-time policies 0 is
accepted and the priorities from 1 on are not. -/
theorem setscheduler_validation_iff (h : Prios) (caller : Caller) (p : Task) (policy : Policy) (prio : Int)
    (permitted : caller.Permitted) (mm : p.mm = true) (nonneg : policy.slt 0 = false)
    (clear : policy &&& schedResetOnFork = 0) :
    ((schedSetscheduler h caller p policy prio).1 ≠ -einval ↔ Advertised h policy prio) ↔
      ((policy = schedFifo ∨ policy = schedRr) → prio < 0 ∨ h.maxUserRtPrio - 1 < prio) := by
  have positive := h.positive
  rw [schedSetscheduler_einval_iff permitted mm nonneg clear, advertised_iff]
  change _ ↔ (RealTime policy → _)
  by_cases realTime : RealTime policy
  · simp only [realTime, realTime.not_fair, true_and, false_and, or_false, forall_const]
    omega
  · simp only [realTime, false_or, false_and, false_imp_iff]

/-- A caller that nothing is refused to, on a kernel where no task waits for a mutex. -/
def root : Caller where
  user := true
  capable := true
  rlimRtprio := 0
  canNice := true
  sameOwner := true
  security := 0
  stop := false
  noRuntime := false
  undeclared := schedNormal
  rtMutexGetprio p := p.normalPrio

def shell : Task := ⟨schedNormal, 0, 120, 120, 120, .fair, false, true⟩

theorem setscheduler_validation_batch :
    (schedSetscheduler linuxPrios root shell schedBatch 0).1 ≠ -einval ↔ Advertised linuxPrios schedBatch 0 :=
  (setscheduler_validation_iff linuxPrios root shell schedBatch 0 ⟨rfl, by decide⟩ rfl (by decide) (by decide)).mpr
    fun realTime => absurd realTime (by decide)

/-- `SCHED_FIFO` with priority 1 is inside the advertised range and invalid. -/
theorem setscheduler_refuses_real_time :
    ¬ ∀ (h : Prios) (caller : Caller) (p : Task) (policy : Policy) (prio : Int), caller.Permitted → p.mm = true →
      policy.slt 0 = false → policy &&& schedResetOnFork = 0 →
      ((schedSetscheduler h caller p policy prio).1 ≠ -einval ↔ Advertised h policy prio) := by
  intro agrees
  have accepted := (agrees linuxPrios root shell schedFifo 1 ⟨rfl, by decide⟩ rfl (by decide) (by decide)).mpr
  exact accepted (advertised_iff.mpr (.inl ⟨.inl rfl, by decide, by decide⟩)) (by decide)

end Cs544.Sched
