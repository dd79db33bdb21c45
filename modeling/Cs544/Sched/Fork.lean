import Cs544.Sched.Policy

/-! `sched_fork` of `sched.c`.

The child starts as a copy of its parent. Its policy and priorities are reset if the parent
has asked for it; the priority it runs with is then taken from the parent. The scheduling
entities and `task_fork` of the class, which only sets the virtual run time, are left out.
-/

set_option autoImplicit false

namespace Cs544.Sched

variable (h : Prios)

/-- The first reset in `sched_fork`. -/
def resetPolicy (p : Task) : Task :=
  if p.policy = schedFifo ∨ p.policy = schedRr then
    { p with policy := schedNormal, normalPrio := p.staticPrio }
  else p

/-- The second one. -/
def resetNice (p : Task) : Task :=
  if prioToNice h p.staticPrio < 0 then
    { p with staticPrio := niceToPrio h 0, normalPrio := niceToPrio h 0 }
  else p

def resetOnFork (p : Task) : Task := { resetNice h (resetPolicy p) with schedResetOnFork := false }

def schedFork (current p : Task) : Task :=
  let p := if p.schedResetOnFork then resetOnFork h p else p
  let p := { p with prio := current.normalPrio }
  if !rtPrio h p.prio then { p with schedClass := .fair } else p

/-! ## Consistent tasks -/

/-- Policy, priority and class agree on whether a task is one of real time. -/
structure Consistent (p : Task) : Prop where
  policy : RealTime p.policy ↔ p.normalPrio < h.maxRtPrio
  schedClass : p.normalPrio < h.maxRtPrio ↔ p.schedClass = .rt
  niceLow : -20 ≤ taskNice h p
  niceHigh : taskNice h p ≤ 19

/-- A child is consistent with the priority it runs with, and one that was reset has left
the class of real time. -/
structure ForkedWell (reset : Bool) (child : Task) : Prop where
  consistent : Consistent h child
  prio : child.prio < h.maxRtPrio ↔ child.schedClass = .rt
  left : reset = true → ¬ RealTime child.policy ∧ h.maxRtPrio ≤ child.prio ∧ child.schedClass = .fair

variable {h} {p : Task}

theorem resetPolicy_of_realTime (realTime : RealTime p.policy) :
    resetPolicy p = { p with policy := schedNormal, normalPrio := p.staticPrio } := if_pos realTime

theorem resetPolicy_of_not_realTime (other : ¬ RealTime p.policy) : resetPolicy p = p := if_neg other

/-- The reset of the policy alone leaves a task that could have been a normal one all along. -/
theorem resetPolicy_leaves (consistent : Consistent h p) :
    ¬ RealTime (resetPolicy p).policy ∧ h.maxRtPrio ≤ (resetPolicy p).normalPrio ∧
      (resetPolicy p).staticPrio = p.staticPrio ∧ (resetPolicy p).schedClass = p.schedClass := by
  have low := consistent.niceLow
  simp only [taskNice, prioToNice] at low
  by_cases realTime : RealTime p.policy
  · rw [resetPolicy_of_realTime realTime]
    have normal : ¬ RealTime schedNormal := by decide
    exact ⟨normal, show h.maxRtPrio ≤ p.staticPrio by omega, rfl, rfl⟩
  · rw [resetPolicy_of_not_realTime realTime]
    exact ⟨realTime, Int.not_lt.mp (consistent.policy.not.mp realTime), rfl, rfl⟩

theorem resetNice_leaves (p : Task) :
    (resetNice h p).policy = p.policy ∧ (resetNice h p).schedClass = p.schedClass ∧
      (h.maxRtPrio ≤ p.normalPrio → h.maxRtPrio ≤ (resetNice h p).normalPrio) ∧
      (taskNice h p ≤ 19 → 0 ≤ taskNice h (resetNice h p) ∧ taskNice h (resetNice h p) ≤ 19) := by
  by_cases negative : prioToNice h p.staticPrio < 0
  · rw [resetNice, if_pos negative]
    simp only [taskNice, prioToNice, niceToPrio, true_and]
    omega
  · rw [resetNice, if_neg negative]
    simp only [taskNice, true_and, imp_self]
    omega

theorem resetOnFork_leaves (consistent : Consistent h p) :
    ¬ RealTime (resetOnFork h p).policy ∧ h.maxRtPrio ≤ (resetOnFork h p).normalPrio ∧
      (resetOnFork h p).schedClass = p.schedClass ∧
      0 ≤ taskNice h (resetOnFork h p) ∧ taskNice h (resetOnFork h p) ≤ 19 := by
  obtain ⟨policy, normal, static, schedClass⟩ := resetPolicy_leaves consistent
  obtain ⟨policy', schedClass', normal', nice⟩ := resetNice_leaves (h := h) (resetPolicy p)
  refine ⟨?_, normal' normal, schedClass'.trans schedClass, nice ?_⟩
  · show ¬ RealTime (resetNice h (resetPolicy p)).policy
    rw [policy']
    exact policy
  · rw [taskNice, static]
    exact consistent.niceHigh

theorem schedFork_of_realTime (current p : Task) (low : current.normalPrio < h.maxRtPrio) :
    schedFork h current p =
      { (if p.schedResetOnFork then resetOnFork h p else p) with prio := current.normalPrio } := by
  simp [schedFork, rtPrio, low]

theorem schedFork_of_not_realTime (current p : Task) (high : ¬ current.normalPrio < h.maxRtPrio) :
    schedFork h current p =
      { (if p.schedResetOnFork then resetOnFork h p else p) with
        prio := current.normalPrio, schedClass := .fair } := by
  simp [schedFork, rtPrio, high]

/-- A child comes out well exactly if it was not to leave the class of real time: its
policy is reset, but its priority is the one of the parent, which keeps it in the class. -/
theorem sched_fork_consistent_iff (h : Prios) (p : Task) (consistent : Consistent h p) :
    ForkedWell h p.schedResetOnFork (schedFork h p p) ↔
      ¬ (p.schedResetOnFork = true ∧ (p.policy = schedFifo ∨ p.policy = schedRr)) := by
  change _ ↔ ¬ (_ ∧ RealTime p.policy)
  by_cases low : p.normalPrio < h.maxRtPrio
  · have realTime := consistent.policy.mpr low
    have rt := consistent.schedClass.mp low
    rw [schedFork_of_realTime p p low]
    cases reset : p.schedResetOnFork with
    | false =>
      simp only [Bool.false_eq_true, if_false, false_and, not_false_eq_true, iff_true]
      refine ⟨⟨consistent.policy, consistent.schedClass, consistent.niceLow, consistent.niceHigh⟩, ?_, nofun⟩
      simp only [low, rt]
    | true =>
      obtain ⟨_, _, same, _⟩ := resetOnFork_leaves consistent
      simp only [if_true, realTime, and_self, not_true_eq_false, iff_false]
      intro well
      have fair := (well.left rfl).2.2
      simp only [same, rt] at fair
      cases fair
  · have other := consistent.policy.not.mpr low
    rw [schedFork_of_not_realTime p p low]
    simp only [other, and_false, not_false_eq_true, iff_true]
    cases reset : p.schedResetOnFork with
    | false =>
      simp only [Bool.false_eq_true, if_false]
      refine ⟨⟨consistent.policy, ?_, consistent.niceLow, consistent.niceHigh⟩, ?_, nofun⟩
      · simp only [low, reduceCtorEq]
      · simp only [low, reduceCtorEq]
    | true =>
      obtain ⟨policy, normal, _, nice⟩ := resetOnFork_leaves consistent
      have high := Int.not_lt.mpr normal
      simp only [if_true]
      refine ⟨⟨?_, ?_, Int.le_trans (by decide) nice.1, nice.2⟩, ?_, fun _ => ⟨policy, Int.not_lt.mp low, rfl⟩⟩
      · simp only [policy, high]
      · simp only [high, reduceCtorEq]
      · simp only [low, reduceCtorEq]

/-- A task of nice value -5 that asked for the reset. -/
def eager : Task := ⟨schedBatch, 0, 115, 115, 115, .fair, true, true⟩

theorem sched_fork_consistent_nice :
    ForkedWell linuxPrios eager.schedResetOnFork (schedFork linuxPrios eager eager) :=
  (sched_fork_consistent_iff linuxPrios eager ⟨by decide, by decide, by decide, by decide⟩).mpr (by decide)

/-- A task of `SCHED_FIFO` at priority 49 that asked for the reset. -/
def fifoTask : Task := ⟨schedFifo, 50, 120, 49, 49, .rt, true, true⟩

/-- Its child has a normal policy, and still runs in the class of real time at priority 49. -/
theorem sched_fork_stays_real_time :
    ¬ ∀ (h : Prios) (p : Task), Consistent h p → p.prio = p.normalPrio →
      ForkedWell h p.schedResetOnFork (schedFork h p p) := by
  intro well
  have forked := well linuxPrios fifoTask ⟨by decide, by decide, by decide, by decide⟩ rfl
  exact absurd (forked.left rfl).2.1 (by decide)

end Cs544.Sched
