import Mathlib.Data.List.Rotate
import Cs544.Library.Links
import Cs544.Library.Runs
import Cs544.Sched.Policy

/-! Tasks of `SCHED_RR`, from `sched_rt.c`.

The run queue has a list of tasks for each priority and a bitmap of the lists that are not
empty. A tick is charged to the running task. When its time slice is used up, the task
goes to the tail of its list and the head of the highest list runs next. Groups, throttling
and the accounting of run times are left out; between ticks only the scheduler acts.
-/

set_option autoImplicit false

namespace Cs544.Sched

open Cs544.Library

/-- The `struct list_head` of a priority's list, or the `run_list` in a task. -/
inductive ListHead (τ : Type) where
  | queue (idx : Nat)
  | runList (p : τ)
  deriving DecidableEq, Repr

structure RtTask where
  policy : Policy
  prio : Nat
  timeSlice : BitVec 32
  needResched : Bool
  deriving DecidableEq, Repr

/-- The part of `struct rq` for real-time tasks, `rt_prio_array` among it. -/
structure Rq (τ : Type) where
  links : Links (ListHead τ)
  bitmap : Nat → Bool
  task : τ → RtTask
  curr : τ

variable {τ : Type} (h : Prios) (hz : Nat)

def defTimeslice : BitVec 32 := BitVec.ofNat 32 (100 * hz / 1000)

/-- `pick_next_rt_entity`. There is no result if no list has tasks. -/
def pickNextRtEntity (rq : Rq τ) : Option τ :=
  match (List.range h.maxRtPrio.toNat).find? rq.bitmap with
  | none => none
  | some idx =>
      match rq.links.next (.queue idx) with
      | .runList p => some p
      | .queue _ => none

/-- The tasks of `SCHED_RR` at the highest priority that has any, in order; the first one
runs. -/
structure Queued (rq : Rq τ) (idx : Nat) (q : List τ) : Prop where
  inside : idx < h.maxRtPrio.toNat
  some' : rq.bitmap idx = true
  highest : ∀ j < idx, rq.bitmap j = false
  ring : rq.links.Ring (.queue idx) (q.map .runList)
  policy : ∀ p ∈ q, (rq.task p).policy = schedRr
  prio : ∀ p ∈ q, (rq.task p).prio = idx
  timeSlice : ∀ p ∈ q, (rq.task p).timeSlice ≠ 0
  needResched : ∀ p ∈ q, (rq.task p).needResched = false
  first : q.head? = some rq.curr

section
variable [DecidableEq τ]

def Rq.setSlice (rq : Rq τ) (p : τ) (timeSlice : BitVec 32) : Rq τ :=
  { rq with task := Function.update rq.task p { rq.task p with timeSlice } }

/-- `set_tsk_need_resched` and `clear_tsk_need_resched`. -/
def Rq.setNeedResched (rq : Rq τ) (p : τ) (needResched : Bool) : Rq τ :=
  { rq with task := Function.update rq.task p { rq.task p with needResched } }

/-- `requeue_rt_entity`. A task that is in no list is linked to itself. -/
def requeueRtEntity (rq : Rq τ) (p : τ) (head : Bool) : Rq τ :=
  if rq.links.empty (.runList p) then rq
  else
    let queue := .queue (rq.task p).prio
    { rq with
      links := if head then rq.links.move (.runList p) queue else rq.links.moveTail (.runList p) queue }

def taskTickRt (rq : Rq τ) (p : τ) : Rq τ :=
  if (rq.task p).policy ≠ schedRr then rq
  else
    let timeSlice := (rq.task p).timeSlice - 1
    if timeSlice ≠ 0 then rq.setSlice p timeSlice
    else
      let rq := rq.setSlice p (defTimeslice hz)
      if rq.links.prev (.runList p) ≠ rq.links.next (.runList p) then
        (requeueRtEntity rq p false).setNeedResched p true
      else rq

/-- A tick, with the rescheduling behind it. -/
def tick (rq : Rq τ) : Option (Rq τ) :=
  let rq := taskTickRt hz rq rq.curr
  if (rq.task rq.curr).needResched then
    (pickNextRtEntity h rq).map fun next => { rq.setNeedResched rq.curr false with curr := next }
  else some rq

/-- Ticks one after the other, with the tasks they went to. -/
def ticks : Nat → Rq τ → Option (List τ × Rq τ)
  | 0, rq => some ([], rq)
  | n + 1, rq =>
      match tick h hz rq with
      | none => none
      | some next => (ticks n next).map fun (log, last) => (rq.curr :: log, last)

/-- A turn: the running task gets as many ticks as its time slice has. -/
structure Turn (rq : Rq τ) (turn : τ × Nat) (next : Rq τ) : Prop where
  running : rq.curr = turn.1
  slice : (rq.task turn.1).timeSlice.toNat = turn.2
  ticks : ticks h hz turn.2 rq = some (List.replicate turn.2 turn.1, next)

/-- Tasks run in the order of the queue, each for its time slice; if all have the same one,
every task gets the same number of ticks in a round. -/
structure RoundRobin (rq : Rq τ) (idx : Nat) (q : List τ) : Prop where
  never_zero : ∀ k, ∃ log last, ticks h hz k rq = some (log, last) ∧ ∀ p ∈ q, (last.task p).timeSlice ≠ 0
  turns : ∀ m, ∃ turns last, Run (Turn h hz) rq turns last ∧ Queued h last idx (q.rotate m) ∧
    turns.map (fun turn => some turn.1) = (List.range m).map fun j => q[j % q.length]?
  fair : (∀ p ∈ q, (rq.task p).timeSlice = defTimeslice hz) →
    ∃ log last, ticks h hz (q.length * (defTimeslice hz).toNat) rq = some (log, last) ∧
      (∀ p ∈ q, log.count p = (defTimeslice hz).toNat) ∧ Queued h last idx q

end

variable {h hz} {rq next last : Rq τ} {p u : τ} {q l rest : List τ} {idx m n : Nat} {t : BitVec 32}

/-! ## The queue -/

namespace Queued

theorem curr (queued : Queued h rq idx (p :: rest)) : rq.curr = p := (Option.some.inj queued.first).symm

theorem nodup (queued : Queued h rq idx q) : q.Nodup := List.Nodup.of_map _ (List.nodup_cons.mp queued.ring.distinct).2

theorem split (queued : Queued h rq idx q) : ∃ p rest, q = p :: rest := by
  cases q with
  | nil => cases queued.first
  | cons p rest => exact ⟨p, rest, rfl⟩

/-- One task of the queue has got another time slice. Everything else but the order is as
before. -/
theorem retask (queued : Queued h rq idx (p :: rest)) (slice : t ≠ 0) (bitmap : next.bitmap = rq.bitmap)
    (self : next.task p = { rq.task p with timeSlice := t }) (others : ∀ u, u ≠ p → next.task u = rq.task u)
    (same : ∀ u, u ∈ l ↔ u ∈ p :: rest) (ring : next.links.Ring (.queue idx) (l.map .runList))
    (first : l.head? = some next.curr) : Queued h next idx l := by
  have kept (u : τ) : (next.task u).policy = (rq.task u).policy ∧ (next.task u).prio = (rq.task u).prio ∧
      (next.task u).needResched = (rq.task u).needResched := by
    by_cases here : u = p
    · subst here
      rw [self]
      exact ⟨rfl, rfl, rfl⟩
    · rw [others u here]
      exact ⟨rfl, rfl, rfl⟩
  refine ⟨queued.inside, ?_, ?_, ring, ?_, ?_, ?_, ?_, first⟩
  · rw [bitmap]
    exact queued.some'
  · rw [bitmap]
    exact queued.highest
  · exact fun u member => (kept u).1.trans (queued.policy u ((same u).mp member))
  · exact fun u member => (kept u).2.1.trans (queued.prio u ((same u).mp member))
  · intro u member
    by_cases here : u = p
    · subst here
      rw [self]
      exact slice
    · rw [others u here]
      exact queued.timeSlice u ((same u).mp member)
  · exact fun u member => (kept u).2.2.trans (queued.needResched u ((same u).mp member))

end Queued

theorem pickNextRtEntity_eq (inside : idx < h.maxRtPrio.toNat) (some' : rq.bitmap idx = true)
    (highest : ∀ j < idx, rq.bitmap j = false) (ring : rq.links.Ring (.queue idx) ((p :: rest).map .runList)) :
    pickNextRtEntity h rq = some p := by
  have found : (List.range h.maxRtPrio.toNat).find? rq.bitmap = some idx := by
    rw [List.find?_range_eq_some]
    exact ⟨some', List.mem_range.mpr inside, fun j before => by simp [highest j before]⟩
  have head : rq.links.next (.queue idx) = .runList p := ring.next_head
  simp only [pickNextRtEntity, found, head]

/-! ## One tick -/

variable [DecidableEq τ]

@[simp] theorem setSlice_self : (rq.setSlice p t).task p = { rq.task p with timeSlice := t } := by
  simp [Rq.setSlice]

theorem setSlice_of_ne (other : u ≠ p) : (rq.setSlice p t).task u = rq.task u := Function.update_of_ne other ..

@[simp] theorem setNeedResched_self (flag : Bool) :
    (rq.setNeedResched p flag).task p = { rq.task p with needResched := flag } := by
  simp [Rq.setNeedResched]

theorem setNeedResched_of_ne (flag : Bool) (other : u ≠ p) : (rq.setNeedResched p flag).task u = rq.task u :=
  Function.update_of_ne other ..

theorem taskTickRt_within (policy : (rq.task p).policy = schedRr) (more : (rq.task p).timeSlice ≠ 1) :
    taskTickRt hz rq p = rq.setSlice p ((rq.task p).timeSlice - 1) := by
  have left : (rq.task p).timeSlice - 1 ≠ 0 := by bv_omega
  simp only [taskTickRt, policy, ne_eq, not_true_eq_false, if_false, left, not_false_eq_true, if_true]

theorem taskTickRt_last (queued : Queued h rq idx (p :: rest)) (final : (rq.task p).timeSlice = 1) :
    taskTickRt hz rq p =
      if rest = [] then rq.setSlice p (defTimeslice hz)
      else (requeueRtEntity (rq.setSlice p (defTimeslice hz)) p false).setNeedResched p true := by
  have policy := queued.policy p List.mem_cons_self
  have expired : (rq.task p).timeSlice - 1 = 0 := by rw [final]; rfl
  have alone : rq.links.prev (.runList p) = rq.links.next (.runList p) ↔ rest = [] := by
    rw [queued.ring.prev_eq_next_iff, List.map_eq_nil_iff]
  have links : (rq.setSlice p (defTimeslice hz)).links = rq.links := rfl
  simp only [taskTickRt, policy, expired, ne_eq, not_true_eq_false, if_false, links, alone, ite_not]

theorem requeueRtEntity_eq (queued : Queued h rq idx (p :: rest)) :
    requeueRtEntity (rq.setSlice p t) p false =
      { rq.setSlice p t with links := rq.links.moveTail (.runList p) (.queue idx) } := by
  have inList : (rq.setSlice p t).links.empty (.runList p) = false := queued.ring.not_empty
  have prio := queued.prio p List.mem_cons_self
  simp only [requeueRtEntity, inList, Bool.false_eq_true, if_false, setSlice_self, prio]
  rfl

theorem tick_within (queued : Queued h rq idx (p :: rest)) (more : (rq.task p).timeSlice ≠ 1) :
    ∃ next, tick h hz rq = some next ∧ Queued h next idx (p :: rest) ∧
      (next.task p).timeSlice = (rq.task p).timeSlice - 1 ∧ ∀ u, u ≠ p → next.task u = rq.task u := by
  have left : (rq.task p).timeSlice - 1 ≠ 0 := by bv_omega
  have flag := queued.needResched p List.mem_cons_self
  have curr : (rq.setSlice p ((rq.task p).timeSlice - 1)).curr = p := queued.curr
  refine ⟨rq.setSlice p ((rq.task p).timeSlice - 1), ?_, ?_, ?_, ?_⟩
  · simp only [tick, queued.curr, taskTickRt_within (queued.policy p List.mem_cons_self) more, curr, setSlice_self,
      flag, Bool.false_eq_true, if_false]
  · exact queued.retask left rfl setSlice_self (fun u other => setSlice_of_ne other) (fun _ => Iff.rfl) queued.ring
      queued.first
  · rw [setSlice_self]
  · exact fun u other => setSlice_of_ne other

/-- The last tick of a time slice refills it, and sends the task to the tail. -/
theorem tick_last (queued : Queued h rq idx (p :: rest)) (final : (rq.task p).timeSlice = 1)
    (refill : defTimeslice hz ≠ 0) :
    ∃ next, tick h hz rq = some next ∧ Queued h next idx (rest ++ [p]) ∧
      (next.task p).timeSlice = defTimeslice hz ∧ ∀ u, u ≠ p → next.task u = rq.task u := by
  have flag := queued.needResched p List.mem_cons_self
  have ticked : taskTickRt hz rq p =
      if rest = [] then rq.setSlice p (defTimeslice hz)
      else (requeueRtEntity (rq.setSlice p (defTimeslice hz)) p false).setNeedResched p true :=
    taskTickRt_last queued final
  cases rest with
  | nil =>
    have curr : (rq.setSlice p (defTimeslice hz)).curr = p := queued.curr
    refine ⟨rq.setSlice p (defTimeslice hz), ?_, ?_, ?_, ?_⟩
    · simp only [tick, queued.curr, ticked, if_true, curr, setSlice_self, flag, Bool.false_eq_true, if_false]
    · exact queued.retask refill rfl setSlice_self (fun u other => setSlice_of_ne other) (fun _ => Iff.rfl) queued.ring
        queued.first
    · rw [setSlice_self]
    · exact fun u other => setSlice_of_ne other
  | cons r rest =>
    have ring : (rq.links.moveTail (.runList p) (.queue idx)).Ring (.queue idx)
        ((r :: (rest ++ [p])).map .runList) := by
      have here : rq.links.Ring (.queue idx) ([] ++ .runList p :: (r :: rest).map .runList) := queued.ring
      have moved := here.moveTail
      simpa using moved
    rw [if_neg (List.cons_ne_nil r rest), requeueRtEntity_eq queued] at ticked
    have curr : (taskTickRt hz rq p).curr = p := by
      rw [ticked]
      exact queued.curr
    have picked : pickNextRtEntity h (taskTickRt hz rq p) = some r := by
      rw [ticked]
      exact pickNextRtEntity_eq queued.inside queued.some' queued.highest ring
    have self : ((taskTickRt hz rq p).setNeedResched p false).task p =
        { rq.task p with timeSlice := defTimeslice hz } := by
      have slice : (rq.setSlice p (defTimeslice hz)).task p = { rq.task p with timeSlice := defTimeslice hz } :=
        setSlice_self
      rw [setNeedResched_self, ticked, setNeedResched_self]
      simp only [slice, flag]
    have others (u : τ) (other : u ≠ p) : ((taskTickRt hz rq p).setNeedResched p false).task u = rq.task u := by
      rw [setNeedResched_of_ne false other, ticked, setNeedResched_of_ne true other]
      exact setSlice_of_ne other
    refine ⟨{ (taskTickRt hz rq p).setNeedResched p false with curr := r }, ?_, ?_, ?_, others⟩
    · have marked : ((taskTickRt hz rq p).task p).needResched = true := by
        rw [ticked, setNeedResched_self]
      simp only [tick, queued.curr, curr, marked, if_true, picked, Option.map_some]
    · refine queued.retask refill ?_ self others (fun u => ?_) ?_ rfl
      · rw [ticked]
        rfl
      · simp only [List.mem_append, List.mem_cons, List.not_mem_nil, or_false]
        tauto
      · rw [ticked]
        exact ring
    · rw [self]

/-! ## Turns -/

theorem ticks_succ (first : tick h hz rq = some next) (n : Nat) :
    ticks h hz (n + 1) rq = (ticks h hz n next).map fun (log, last) => (rq.curr :: log, last) := by
  simp only [ticks, first]

theorem ticks_append {log more : List τ} (first : ticks h hz m rq = some (log, next))
    (rest : ticks h hz n next = some (more, last)) : ticks h hz (m + n) rq = some (log ++ more, last) := by
  induction m generalizing rq log with
  | zero =>
    cases first
    simpa using rest
  | succ m ih =>
    rw [ticks] at first
    split at first
    · cases first
    next middle edge =>
      obtain ⟨⟨log', next'⟩, front, same⟩ := Option.map_eq_some_iff.mp first
      cases same
      rw [Nat.succ_add, ticks_succ edge, ih front]
      rfl

/-- The whole time slice goes to the running task, which is behind all others then. -/
theorem ticks_turn (refill : defTimeslice hz ≠ 0) (n : Nat) (queued : Queued h rq idx (p :: rest))
    (slice : (rq.task p).timeSlice.toNat = n + 1) :
    ∃ next, ticks h hz (n + 1) rq = some (List.replicate (n + 1) p, next) ∧ Queued h next idx (rest ++ [p]) ∧
      (next.task p).timeSlice = defTimeslice hz ∧ ∀ u, u ≠ p → next.task u = rq.task u := by
  induction n generalizing rq with
  | zero =>
    have final : (rq.task p).timeSlice = 1 := by
      apply BitVec.eq_of_toNat_eq
      rw [slice]
      rfl
    obtain ⟨next, ticked, queued', refilled, others⟩ := tick_last queued final refill
    refine ⟨next, ?_, queued', refilled, others⟩
    rw [ticks_succ ticked, queued.curr]
    rfl
  | succ n ih =>
    have more : (rq.task p).timeSlice ≠ 1 := fun one => by
      rw [one] at slice
      simp at slice
    obtain ⟨middle, ticked, queued', less, others⟩ := tick_within queued more
    have left : (middle.task p).timeSlice.toNat = n + 1 := by
      rw [less]
      bv_omega
    obtain ⟨next, rest', queued'', refilled, others'⟩ := ih queued' left
    refine ⟨next, ?_, queued'', refilled, fun u other => (others' u other).trans (others u other)⟩
    rw [ticks_succ ticked, rest', queued.curr]
    rfl

/-- One turn. -/
theorem turn_queued (refill : defTimeslice hz ≠ 0) (queued : Queued h rq idx (p :: rest)) :
    ∃ next, Turn h hz rq (p, (rq.task p).timeSlice.toNat) next ∧ Queued h next idx (rest ++ [p]) ∧
      (next.task p).timeSlice = defTimeslice hz ∧ ∀ u, u ≠ p → next.task u = rq.task u := by
  have positive := queued.timeSlice p List.mem_cons_self
  obtain ⟨n, slice⟩ : ∃ n, (rq.task p).timeSlice.toNat = n + 1 := by
    refine ⟨(rq.task p).timeSlice.toNat - 1, ?_⟩
    bv_omega
  obtain ⟨next, ticked, queued', refilled, others⟩ := ticks_turn refill n queued slice
  rw [← slice] at ticked
  exact ⟨next, ⟨queued.curr, rfl, ticked⟩, queued', refilled, others⟩

/-- Between any two ticks the queue is a rotation of the first one. -/
theorem ticks_queued (refill : defTimeslice hz ≠ 0) (k : Nat) (queued : Queued h rq idx q) :
    ∃ log last j, ticks h hz k rq = some (log, last) ∧ Queued h last idx (q.rotate j) := by
  induction k generalizing rq q with
  | zero => exact ⟨[], rq, 0, rfl, by rwa [List.rotate_zero]⟩
  | succ k ih =>
    obtain ⟨p, rest, rfl⟩ := queued.split
    by_cases final : (rq.task p).timeSlice = 1
    · obtain ⟨next, ticked, queued', _, _⟩ := tick_last queued final refill
      obtain ⟨log, last, j, rest', rotated⟩ := ih queued'
      refine ⟨rq.curr :: log, last, j + 1, ?_, ?_⟩
      · rw [ticks_succ ticked, rest']
        rfl
      · rwa [List.rotate_cons_succ]
    · obtain ⟨next, ticked, queued', _, _⟩ := tick_within queued final
      obtain ⟨log, last, j, rest', rotated⟩ := ih queued'
      refine ⟨rq.curr :: log, last, j, ?_, rotated⟩
      rw [ticks_succ ticked, rest']
      rfl

/-- Any number of turns. -/
theorem turns_queued (refill : defTimeslice hz ≠ 0) (queued : Queued h rq idx q) (m : Nat) :
    ∃ turns last, Run (Turn h hz) rq turns last ∧ Queued h last idx (q.rotate m) ∧
      turns.map (fun turn => some turn.1) = (List.range m).map fun j => q[j % q.length]? := by
  induction m with
  | zero => exact ⟨[], rq, .nil rq, by rwa [List.rotate_zero], rfl⟩
  | succ m ih =>
    obtain ⟨turns, middle, run, queued', order⟩ := ih
    obtain ⟨p, rest, rotated⟩ := queued'.split
    have running : q[m % q.length]? = some p := by
      have first : (q.rotate m)[0]? = some p := by rw [rotated]; rfl
      obtain ⟨u, others, rfl⟩ := queued.split
      rwa [List.getElem?_rotate (by simp), Nat.zero_add] at first
    rw [rotated] at queued'
    obtain ⟨last, turned, queued'', _, _⟩ := turn_queued refill queued'
    refine ⟨turns ++ [(p, _)], last, run.append (.cons turned (.nil last)), ?_, ?_⟩
    · rw [← List.rotate_rotate, rotated, List.rotate_cons_succ, List.rotate_zero]
      exact queued''
    · rw [List.map_append, order, List.range_succ, List.map_append, List.map_singleton, List.map_singleton, running]

/-- A round: every task has its turn, and the queue is as it was. -/
theorem round_queued (refill : defTimeslice hz ≠ 0) (l done : List τ) (queued : Queued h rq idx (l ++ done)) :
    ∃ last, Run (Turn h hz) rq (l.map fun p => (p, (rq.task p).timeSlice.toNat)) last ∧
      Queued h last idx (done ++ l) := by
  induction l generalizing rq done with
  | nil => exact ⟨rq, .nil rq, by simpa using queued⟩
  | cons p l ih =>
    rw [List.cons_append] at queued
    obtain ⟨next, turned, queued', _, others⟩ := turn_queued refill queued
    rw [List.append_assoc] at queued'
    obtain ⟨last, run, queued''⟩ := ih (done ++ [p]) queued'
    refine ⟨last, ?_, by rwa [List.append_assoc] at queued''⟩
    have fresh := (List.nodup_cons.mp queued.nodup).1
    have slices : (l.map fun u => (u, (next.task u).timeSlice.toNat)) =
        l.map fun u => (u, (rq.task u).timeSlice.toNat) := by
      refine List.map_congr_left fun u member => ?_
      have other : u ≠ p := fun same => fresh (List.mem_append_left done (same ▸ member))
      rw [others u other]
    rw [slices] at run
    exact .cons turned run

theorem ticks_of_turns (run : Run (Turn h hz) rq (q.map fun p => (p, n)) last) :
    ticks h hz (q.length * n) rq = some (q.flatMap fun p => List.replicate n p, last) := by
  induction q generalizing rq with
  | nil =>
    cases run
    rw [List.length_nil, Nat.zero_mul]
    rfl
  | cons p q ih =>
    cases run with
    | cons first rest =>
      rw [List.length_cons, Nat.succ_mul, Nat.add_comm]
      exact ticks_append first.ticks (ih rest)

/-- In a list that has everything `n` times, everything is counted `n` times. -/
theorem count_flatMap_replicate (distinct : q.Nodup) (member : p ∈ q) :
    (q.flatMap fun u => List.replicate n u).count p = n := by
  induction q with
  | nil => cases member
  | cons u q ih =>
    obtain ⟨fresh, distinct⟩ := List.nodup_cons.mp distinct
    rw [List.flatMap_cons, List.count_append]
    rcases List.mem_cons.mp member with rfl | member
    · have none' : p ∉ q.flatMap fun u => List.replicate n u := by
        simp only [List.mem_flatMap, List.mem_replicate, not_exists, not_and]
        rintro u inside _ rfl
        exact fresh inside
      rw [List.count_replicate_self, List.count_eq_zero_of_not_mem none', Nat.add_zero]
    · have other : u ≠ p := fun same => fresh (same ▸ member)
      rw [ih distinct member, List.count_replicate, if_neg (by simpa using other), Nat.zero_add]

/-- Round-robin scheduling is fair. -/
theorem round_robin_fair (h : Prios) (hz : Nat) (refill : defTimeslice hz ≠ 0) (rq : Rq τ) (idx : Nat) (q : List τ)
    (queued : Queued h rq idx q) : RoundRobin h hz rq idx q := by
  refine ⟨fun k => ?_, turns_queued refill queued, fun equal => ?_⟩
  · obtain ⟨log, last, j, ticked, rotated⟩ := ticks_queued refill k queued
    exact ⟨log, last, ticked, fun p member => rotated.timeSlice p (List.mem_rotate.mpr member)⟩
  · obtain ⟨last, run, queued'⟩ := round_queued refill q [] (by rwa [List.append_nil])
    have slices : (q.map fun p => (p, (rq.task p).timeSlice.toNat)) = q.map fun p => (p, (defTimeslice hz).toNat) :=
      List.map_congr_left fun p member => by rw [equal p member]
    rw [slices] at run
    exact ⟨_, last, ticks_of_turns run, fun p member => count_flatMap_replicate queued.nodup member, queued'⟩

/-- The tasks `false` and `true` at priority 1, with time slices of 3 and 1. -/
def twoTasks : Rq Bool where
  links :=
    { next := fun
        | .queue 1 => .runList false
        | .runList false => .runList true
        | .runList true => .queue 1
        | other => other
      prev := fun
        | .queue 1 => .runList true
        | .runList true => .runList false
        | .runList false => .queue 1
        | other => other }
  bitmap idx := idx = 1
  task p := ⟨schedRr, 1, if p then 1 else 3, false⟩
  curr := false

theorem twoTasks_queued : Queued linuxPrios twoTasks 1 [false, true] where
  inside := by decide
  some' := rfl
  highest := by decide
  ring := ⟨⟨rfl, rfl, rfl, rfl, rfl, rfl⟩, by decide⟩
  policy := by decide
  prio := by decide
  timeSlice := by decide
  needResched := by decide
  first := rfl

theorem round_robin_fair_two_tasks : RoundRobin linuxPrios 100 twoTasks 1 [false, true] :=
  round_robin_fair linuxPrios 100 (by decide) twoTasks 1 [false, true] twoTasks_queued

end Cs544.Sched
