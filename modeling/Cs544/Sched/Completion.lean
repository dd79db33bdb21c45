import Mathlib.Algebra.Group.Nat.Defs
import Mathlib.Data.List.Nodup
import Mathlib.Logic.Function.Basic
import Cs544.Library.Runs

/-! Wait queues and completions, from `sched.c`.

A completion counts what is done and has a queue of the tasks that wait for it. What is done
while the lock of the queue is held is one step: a task that waits takes one to call
`wait_for_common` and another one each time `schedule_timeout` returns to it. Who wakes it up
(a timer, a signal or anybody else) is not decided here. `TASK_WAKING` is `TASK_RUNNING`.
-/

set_option autoImplicit false

namespace Cs544.Sched

open Cs544.Library

/-! ## Constants of `linux/sched.h` -/

abbrev TaskState := BitVec 32

def taskRunning : TaskState := 0
def taskInterruptible : TaskState := 1
def taskUninterruptible : TaskState := 2
def taskWakekill : TaskState := 128

def taskNormal : TaskState := taskInterruptible ||| taskUninterruptible

/-- `signal_pending_state`, of a task that has a signal pending. -/
def heedsSignal (state : TaskState) : Bool := state &&& (taskInterruptible ||| taskWakekill) ≠ 0

def erestartsys : Int := 512

def uintMax : Nat := 2 ^ 32 - 1

/-! ## Wait queues -/

/-- `wait_queue_t`, with `default_wake_function`. -/
structure WaitEntry (τ : Type) where
  task : τ
  -- `WQ_FLAG_EXCLUSIVE`.
  exclusive : Bool

variable {τ : Type}

section
variable [DecidableEq τ]

/-- `try_to_wake_up`, and whether the task was asleep in one of these states. -/
def tryToWakeUpFrom (mode : TaskState) (p : τ) (state : τ → TaskState) : (τ → TaskState) × Bool :=
  if state p &&& mode = 0 then (state, false) else (Function.update state p taskRunning, true)

def wakeUpCommon (mode : TaskState) : List (WaitEntry τ) → Int → (τ → TaskState) → τ → TaskState
  | [], _, state => state
  | curr :: rest, nrExclusive, state =>
      let (state, woken) := tryToWakeUpFrom mode curr.task state
      if woken && curr.exclusive then
        if nrExclusive - 1 = 0 then state else wakeUpCommon mode rest (nrExclusive - 1) state
      else wakeUpCommon mode rest nrExclusive state

end

/-! ## Completions -/

/-- Where a task is while it sleeps in `do_wait_for_common`. -/
structure Sleeper where
  state : TaskState
  timeout : Int

structure Completion (τ : Type) where
  done : Nat
  wait : List (WaitEntry τ)
  state : τ → TaskState
  sleeper : τ → Option Sleeper

namespace Completion

def init : Completion τ where
  done := 0
  wait := []
  state _ := taskRunning
  sleeper _ := none

/-- `x->done--` and the value that `do_wait_for_common` returns then. -/
def take (timeout : Int) (x : Completion τ) : Completion τ × Int :=
  ({ x with done := x.done - 1 }, if timeout = 0 then 1 else timeout)

section
variable [DecidableEq τ]

/-- The end of `do_wait_for_common`, from `__remove_wait_queue` on. -/
def leave (p : τ) (timeout : Int) (x : Completion τ) : Completion τ × Int :=
  let x := { x with wait := x.wait.filter (·.task ≠ p), sleeper := Function.update x.sleeper p none }
  if x.done = 0 then (x, timeout) else x.take timeout

/-- The loop of `do_wait_for_common` up to `schedule_timeout`. -/
def sleep (p : τ) (state : TaskState) (timeout : Int) (signal : Bool) (x : Completion τ) : Completion τ × Option Int :=
  if signal && heedsSignal state then (x.leave p (-erestartsys)).map id some
  else ({ x with state := Function.update x.state p state, sleeper := Function.update x.sleeper p (some ⟨state, timeout⟩) }, none)

/-- `wait_for_common`, with what it returns if it does not sleep. -/
def waitForCommon (p : τ) (state : TaskState) (timeout : Int) (signal : Bool) (x : Completion τ) :
    Completion τ × Option Int :=
  if x.done = 0 then sleep p state timeout signal { x with wait := x.wait ++ [⟨p, true⟩] }
  else (x.take timeout).map id some

/-- `do_wait_for_common` from where `schedule_timeout` returns. -/
def resume (p : τ) (state : TaskState) (timeout : Int) (signal : Bool) (x : Completion τ) : Completion τ × Option Int :=
  if x.done = 0 ∧ timeout ≠ 0 then sleep p state timeout signal x else (x.leave p timeout).map id some

def tryWaitForCompletion (x : Completion τ) : Completion τ × Int :=
  if x.done = 0 then (x, 0) else ({ x with done := x.done - 1 }, 1)

def complete (x : Completion τ) : Completion τ :=
  { x with done := (x.done + 1) % 2 ^ 32, state := wakeUpCommon taskNormal x.wait 1 x.state }

def completeAll (x : Completion τ) : Completion τ :=
  { x with done := (uintMax / 2 + x.done) % 2 ^ 32, state := wakeUpCommon taskNormal x.wait 0 x.state }

end

end Completion

inductive CompletionEvent (τ : Type) where
  | complete
  | completeAll
  | tryWait
  | wait (p : τ) (state : TaskState) (timeout : Int) (signal : Bool)
  | resume (p : τ) (left : Int) (signal : Bool)
  | wake (p : τ)
  | elsewhere (p : τ) (state : TaskState)

namespace CompletionEvent

/-- Only a task that runs calls `wait_for_common` or returns from `schedule_timeout`. -/
def Allowed (x : Completion τ) : CompletionEvent τ → Prop
  | wait p state timeout _ => x.sleeper p = none ∧ x.state p = taskRunning ∧ state &&& taskNormal ≠ 0 ∧ 0 ≤ timeout
  | resume p left _ => x.state p = taskRunning ∧ ∃ w, x.sleeper p = some w ∧ 0 ≤ left ∧ left ≤ w.timeout
  | elsewhere p _ => x.sleeper p = none
  | complete | completeAll | tryWait | wake _ => True

def signals : CompletionEvent τ → Nat
  | complete => 1
  | completeAll => uintMax / 2
  | _ => 0

section
variable [DecidableEq τ]

/-- What happens, and what a call returns that ends with it. -/
def perform (x : Completion τ) : CompletionEvent τ → Completion τ × Option Int
  | complete => (x.complete, none)
  | completeAll => (x.completeAll, none)
  | tryWait => x.tryWaitForCompletion.map id some
  | wait p state timeout signal => x.waitForCommon p state timeout signal
  | resume p left signal =>
      match x.sleeper p with
      | none => (x, none)
      | some w => x.resume p w.state left signal
  | wake p => ({ x with state := Function.update x.state p taskRunning }, none)
  | elsewhere p state => ({ x with state := Function.update x.state p state }, none)

end

end CompletionEvent

def CompletionStep [DecidableEq τ] (x : Completion τ) (e : CompletionEvent τ × Option Int) (next : Completion τ) : Prop :=
  e.1.Allowed x ∧ e.1.perform x = (next, e.2)

/-! ## Waking up -/

section
variable [DecidableEq τ] {mode : TaskState} {queue : List (WaitEntry τ)} {state : τ → TaskState}

/-- One exclusive task is woken: the first one of the queue that sleeps. -/
theorem wakeUpCommon_one (mode : TaskState) (state : τ → TaskState) (exclusive : ∀ e ∈ queue, e.exclusive = true) :
    (wakeUpCommon mode queue 1 state = state ∧ ∀ e ∈ queue, state e.task &&& mode = 0) ∨
      ∃ front e back, queue = front ++ e :: back ∧ (∀ f ∈ front, state f.task &&& mode = 0) ∧
        state e.task &&& mode ≠ 0 ∧ wakeUpCommon mode queue 1 state = Function.update state e.task taskRunning := by
  induction queue with
  | nil => exact .inl ⟨rfl, nofun⟩
  | cons e rest ih =>
    obtain ⟨first, exclusive⟩ := List.forall_mem_cons.mp exclusive
    rw [wakeUpCommon, tryToWakeUpFrom]
    by_cases awake : state e.task &&& mode = 0
    · rw [if_pos awake]
      rcases ih exclusive with ⟨same, others⟩ | ⟨front, f, back, split, before, asleep, result⟩
      · exact .inl ⟨same, List.forall_mem_cons.mpr ⟨awake, others⟩⟩
      · exact .inr ⟨e :: front, f, back, by rw [split, List.cons_append], List.forall_mem_cons.mpr ⟨awake, before⟩, asleep,
          result⟩
    · rw [if_neg awake]
      refine .inr ⟨[], e, rest, rfl, nofun, awake, ?_⟩
      simp [first]

/-- All tasks are woken if their number is not given. -/
theorem wakeUpCommon_all {nrExclusive : Int} (all : nrExclusive ≤ 0) (p : τ) :
    wakeUpCommon mode queue nrExclusive state p =
      if p ∈ queue.map WaitEntry.task ∧ state p &&& mode ≠ 0 then taskRunning else state p := by
  induction queue generalizing nrExclusive state with
  | nil => exact (if_neg fun found => List.not_mem_nil found.1).symm
  | cons e rest ih =>
    have woken {nr : Int} (all : nr ≤ 0) (asleep : state e.task &&& mode ≠ 0) :
        wakeUpCommon mode rest nr (Function.update state e.task taskRunning) p =
          if p ∈ (e :: rest).map WaitEntry.task ∧ state p &&& mode ≠ 0 then taskRunning else state p := by
      rw [ih all]
      by_cases here : p = e.task
      · subst here
        rw [Function.update_self, ite_self, if_pos ⟨List.mem_cons_self, asleep⟩]
      · simp [here]
    have goes : nrExclusive - 1 ≠ 0 := by omega
    rw [wakeUpCommon, tryToWakeUpFrom]
    by_cases awake : state e.task &&& mode = 0
    · rw [if_pos awake]
      refine (ih all).trans ?_
      by_cases here : p = e.task
      · simp [here, awake]
      · simp [here]
    · rw [if_neg awake]
      dsimp only
      rw [if_neg goes]
      cases e.exclusive with
      | true => exact woken (by omega) awake
      | false => exact woken all awake

end

/-! ## What is kept -/

namespace Completion

def awake (x : Completion τ) : Nat := x.wait.countP fun e => x.state e.task = taskRunning

/-- As many tasks as can be served are awake. -/
structure Sound (x : Completion τ) : Prop where
  bound : x.done < 2 ^ 32
  nodup : (x.wait.map WaitEntry.task).Nodup
  exclusive : ∀ e ∈ x.wait, e.exclusive = true
  queued : ∀ p, p ∈ x.wait.map WaitEntry.task ↔ (x.sleeper p).isSome
  asleep : ∀ p w, x.sleeper p = some w → w.state &&& taskNormal ≠ 0 ∧ 0 ≤ w.timeout ∧
    (x.state p = taskRunning ∨ x.state p = w.state)
  served : min x.done x.wait.length ≤ x.awake

variable {x y : Completion τ} {p : τ}

/-- A task of the queue that `complete` would not wake up is awake. -/
theorem Sound.running (sound : x.Sound) {e : WaitEntry τ} (member : e ∈ x.wait)
    (skipped : x.state e.task &&& taskNormal = 0) : x.state e.task = taskRunning := by
  obtain ⟨w, sleeps⟩ := Option.isSome_iff_exists.mp ((sound.queued e.task).mp (List.mem_map_of_mem member))
  obtain ⟨normal, _, state⟩ := sound.asleep e.task w sleeps
  refine state.resolve_right fun same => normal ?_
  rwa [← same]

theorem sound_init : (init : Completion τ).Sound where
  bound := Nat.two_pow_pos 32
  nodup := List.nodup_nil
  exclusive := nofun
  queued p := by simp [init]
  asleep := nofun
  served := Nat.zero_le _

/-- The states of the tasks change, but those of the queue only to `TASK_RUNNING`. -/
theorem Sound.wakeUp (sound : x.Sound) {state : τ → TaskState} {done : Nat} (bound : done < 2 ^ 32)
    (same : ∀ q w, x.sleeper q = some w → state q = taskRunning ∨ state q = x.state q)
    (served : min done x.wait.length ≤ x.wait.countP fun e => state e.task = taskRunning) :
    Sound { x with done, state } where
  bound := bound
  nodup := sound.nodup
  exclusive := sound.exclusive
  queued := sound.queued
  asleep q w sleeps := by
    obtain ⟨normal, positive, before⟩ := sound.asleep q w sleeps
    refine ⟨normal, positive, ?_⟩
    rcases same q w sleeps with now | now
    · exact .inl now
    · rw [← now] at before
      exact before
  served := served

theorem take_positive (x : Completion τ) {timeout : Int} (positive : 0 ≤ timeout) : 0 < (x.take timeout).2 := by
  rw [take]
  dsimp only
  split_ifs
  · exact Int.one_pos
  · omega

theorem Sound.take (sound : x.Sound) (timeout : Int) : (x.take timeout).1.Sound := by
  have bound := sound.bound
  have served := sound.served
  rw [Completion.take]
  exact sound.wakeUp (by omega) (fun _ _ _ => .inr rfl) (Nat.le_trans (by omega) served)

theorem countP_awake_le {state state' : τ → TaskState} {l : List (WaitEntry τ)}
    (more : ∀ e ∈ l, state e.task = taskRunning → state' e.task = taskRunning) :
    (l.countP fun e => state e.task = taskRunning) ≤ l.countP fun e => state' e.task = taskRunning :=
  List.countP_mono_left fun e member awake => decide_eq_true (more e member (of_decide_eq_true awake))

section
variable [DecidableEq τ]

theorem perm_filter {l : List (WaitEntry τ)} (nodup : (l.map WaitEntry.task).Nodup) {e : WaitEntry τ} (member : e ∈ l) :
    l.Perm (e :: l.filter (·.task ≠ e.task)) := by
  induction l with
  | nil => cases member
  | cons f rest ih =>
    obtain ⟨absent, nodup⟩ := List.nodup_cons.mp nodup
    rw [List.filter_cons]
    rcases List.mem_cons.mp member with rfl | member
    · have others : rest.filter (·.task ≠ e.task) = rest := by
        refine List.filter_eq_self.mpr fun g inside => decide_eq_true fun same => absent ?_
        rw [← same]
        exact List.mem_map_of_mem inside
      rw [if_neg (by simp), others]
    · have other : f.task ≠ e.task := fun same => absent (same ▸ List.mem_map_of_mem member)
      rw [if_pos (by simp [other])]
      exact ((ih nodup member).cons f).trans (.swap e f _)

/-! ### Steps -/

theorem Sound.complete (sound : x.Sound) : x.complete.Sound := by
  have served := sound.served
  have least : (x.done + 1) % 2 ^ 32 ≤ x.done + 1 := Nat.mod_le ..
  refine sound.wakeUp (Nat.mod_lt _ (Nat.two_pow_pos 32)) (fun q _ _ => ?_) ?_
  · rcases wakeUpCommon_one taskNormal x.state sound.exclusive with ⟨same, _⟩ | ⟨_, e, _, _, _, _, woken⟩
    · exact .inr (congrFun same q)
    · rw [woken]
      by_cases here : q = e.task
      · rw [here, Function.update_self]
        exact .inl rfl
      · exact .inr (Function.update_of_ne here ..)
  · rcases wakeUpCommon_one taskNormal x.state sound.exclusive with
      ⟨same, others⟩ | ⟨front, e, back, split, _, asleep, woken⟩
    · have all : (x.wait.countP fun e => x.state e.task = taskRunning) = x.wait.length :=
        List.countP_eq_length.mpr fun e member => decide_eq_true (sound.running member (others e member))
      rw [same, all]
      exact Nat.min_le_right ..
    · have kept (l : List (WaitEntry τ)) : (l.countP fun f => x.state f.task = taskRunning) ≤
          l.countP fun f => Function.update x.state e.task taskRunning f.task = taskRunning :=
        countP_awake_le fun f _ awake => by
          by_cases here : f.task = e.task
          · rw [here, Function.update_self]
          · rwa [Function.update_of_ne here]
      have before : x.state e.task ≠ taskRunning := fun awake => asleep (by rw [awake]; rfl)
      rw [Completion.awake, split, List.countP_append, List.countP_cons_of_neg (by simp [before])] at served
      rw [woken, split, List.countP_append, List.countP_cons_of_pos (by simp)]
      have left := kept front
      have right := kept back
      omega

theorem Sound.completeAll (sound : x.Sound) : x.completeAll.Sound := by
  refine sound.wakeUp (Nat.mod_lt _ (Nat.two_pow_pos 32)) (fun q _ _ => ?_) ?_
  · rw [wakeUpCommon_all (Int.le_refl 0)]
    split_ifs
    · exact .inl rfl
    · exact .inr rfl
  · refine Nat.le_trans (Nat.min_le_right ..) (Nat.le_of_eq (List.countP_eq_length.mpr fun e member => ?_).symm)
    refine decide_eq_true ?_
    rw [wakeUpCommon_all (Int.le_refl 0)]
    split_ifs with woken
    · rfl
    · refine sound.running member (by_contra fun asleep => woken ⟨List.mem_map_of_mem member, asleep⟩)

theorem Sound.wake (sound : x.Sound) (p : τ) : Sound { x with state := Function.update x.state p taskRunning } := by
  have kept (q : τ) : Function.update x.state p taskRunning q = taskRunning ∨
      Function.update x.state p taskRunning q = x.state q := by
    by_cases here : q = p
    · rw [here, Function.update_self]
      exact .inl rfl
    · exact .inr (Function.update_of_ne here ..)
  refine sound.wakeUp sound.bound (fun q _ _ => kept q) (Nat.le_trans sound.served (countP_awake_le fun e _ awake => ?_))
  rcases kept e.task with now | now
  · exact now
  · exact now.trans awake

/-- What a task does that does not wait here is of no interest. -/
theorem Sound.elsewhere (sound : x.Sound) (absent : x.sleeper p = none) (state : TaskState) :
    Sound { x with state := Function.update x.state p state } := by
  have kept (q : τ) (member : q ∈ x.wait.map WaitEntry.task) : Function.update x.state p state q = x.state q := by
    refine Function.update_of_ne ?_ ..
    rintro rfl
    have here := (sound.queued q).mp member
    rw [absent] at here
    cases here
  refine sound.wakeUp sound.bound (fun q w sleeps => .inr (kept q ((sound.queued q).mpr (by rw [sleeps]; rfl)))) ?_
  refine Nat.le_trans sound.served (countP_awake_le fun e member awake => ?_)
  rwa [kept e.task (List.mem_map_of_mem member)]

theorem Sound.sleeps (sound : x.Sound) (none' : x.done = 0) {wait : List (WaitEntry τ)} {state : TaskState} {timeout : Int}
    (nodup : (wait.map WaitEntry.task).Nodup) (exclusive : ∀ e ∈ wait, e.exclusive = true)
    (members : ∀ q, q ∈ wait.map WaitEntry.task ↔ q = p ∨ q ∈ x.wait.map WaitEntry.task)
    (normal : state &&& taskNormal ≠ 0) (positive : 0 ≤ timeout) :
    Sound { x with
      wait
      state := Function.update x.state p state
      sleeper := Function.update x.sleeper p (some ⟨state, timeout⟩) } where
  bound := sound.bound
  nodup := nodup
  exclusive := exclusive
  queued q := by
    rw [members, sound.queued]
    dsimp only
    by_cases here : q = p
    · rw [here, Function.update_self]
      exact iff_of_true (.inl rfl) rfl
    · rw [Function.update_of_ne here, or_iff_right here]
  asleep q w sleeps := by
    dsimp only at sleeps ⊢
    by_cases here : q = p
    · rw [here, Function.update_self] at sleeps ⊢
      cases sleeps
      exact ⟨normal, positive, .inr rfl⟩
    · rw [Function.update_of_ne here] at sleeps ⊢
      exact sound.asleep q w sleeps
  served := by
    dsimp only
    rw [none']
    exact Nat.le_trans (Nat.min_le_left ..) (Nat.zero_le _)

theorem leave_eq (p : τ) (timeout : Int) : x.leave p timeout = ({ x with
      done := x.done - 1
      wait := x.wait.filter (·.task ≠ p)
      sleeper := Function.update x.sleeper p none },
    if x.done = 0 ∨ timeout ≠ 0 then timeout else 1) := by
  rw [leave]
  dsimp only
  by_cases none' : x.done = 0
  · rw [if_pos none', if_pos (.inl none'), none']
  · rw [if_neg none', Completion.take]
    simp only [none', false_or, ne_eq, ite_not]

/-- A task leaves the queue awake, and takes one if there is one. -/
theorem Sound.leave (sound : x.Sound) (running : x.state p = taskRunning) {w : Sleeper} (sleeps : x.sleeper p = some w)
    (timeout : Int) : (x.leave p timeout).1.Sound := by
  obtain ⟨e, member, rfl⟩ := List.mem_map.mp ((sound.queued p).mpr (by rw [sleeps]; rfl))
  have perm := perm_filter sound.nodup member
  have inside (q : τ) : q ∈ (x.wait.filter (·.task ≠ e.task)).map WaitEntry.task ↔
      q ≠ e.task ∧ q ∈ x.wait.map WaitEntry.task := by
    simp only [List.mem_map, List.mem_filter, decide_eq_true_eq]
    constructor
    · rintro ⟨f, ⟨found, other⟩, rfl⟩
      exact ⟨other, f, found, rfl⟩
    · rintro ⟨other, f, found, rfl⟩
      exact ⟨f, ⟨found, other⟩, rfl⟩
  rw [leave_eq e.task timeout]
  refine ⟨?_, sound.nodup.sublist (List.filter_sublist.map _), fun f found => ?_, fun q => ?_, fun q v asleep => ?_, ?_⟩
  · exact Nat.lt_of_le_of_lt (Nat.sub_le ..) sound.bound
  · exact sound.exclusive f (List.mem_filter.mp found).1
  · dsimp only
    rw [inside, sound.queued]
    by_cases here : q = e.task
    · rw [here, Function.update_self]
      exact iff_of_false (fun both => both.1 rfl) Bool.false_ne_true
    · rw [Function.update_of_ne here, and_iff_right here]
  · dsimp only at asleep ⊢
    by_cases here : q = e.task
    · rw [here, Function.update_self] at asleep
      cases asleep
    · rw [Function.update_of_ne here] at asleep
      exact sound.asleep q v asleep
  · have served := sound.served
    rw [Completion.awake, perm.countP_eq, perm.length_eq, List.countP_cons_of_pos (by simp [running]), List.length_cons]
      at served
    show min (x.done - 1) _ ≤ (x.wait.filter (·.task ≠ e.task)).countP fun f => x.state f.task = taskRunning
    dsimp only
    omega

/-- Nothing is left of a task that a signal keeps from sleeping. -/
theorem Sound.leave_enqueued (sound : x.Sound) (none' : x.done = 0) (absent : x.sleeper p = none) (timeout : Int) :
    Completion.leave p timeout { x with wait := x.wait ++ [⟨p, true⟩] } = (x, timeout) := by
  have outside (e : WaitEntry τ) (member : e ∈ x.wait) : e.task ≠ p := by
    rintro rfl
    have here := (sound.queued e.task).mp (List.mem_map_of_mem member)
    rw [absent] at here
    cases here
  have wait : (x.wait ++ [WaitEntry.mk p true]).filter (·.task ≠ p) = x.wait := by
    rw [List.filter_append, List.filter_eq_self.mpr fun e member => decide_eq_true (outside e member)]
    simp
  rw [Completion.leave]
  dsimp only
  rw [if_pos none', wait, ← absent, Function.update_eq_self]

/-- One that a call has taken. -/
def taken (returned : Option Int) : Nat := if 0 < returned.getD 0 then 1 else 0

theorem taken_of_pos {timeout : Int} (positive : 0 < timeout) : taken (some timeout) = 1 := if_pos positive

theorem taken_of_le {timeout : Int} (none' : timeout ≤ 0) : taken (some timeout) = 0 := if_neg (Int.not_lt.mpr none')

theorem Sound.waits (sound : x.Sound) {state : TaskState} {timeout : Int} (signal : Bool) (absent : x.sleeper p = none)
    (normal : state &&& taskNormal ≠ 0) (positive : 0 ≤ timeout) :
    (x.waitForCommon p state timeout signal).1.Sound ∧
      (x.waitForCommon p state timeout signal).1.done + taken (x.waitForCommon p state timeout signal).2 = x.done := by
  rw [waitForCommon]
  by_cases none' : x.done = 0
  · rw [if_pos none', sleep]
    split_ifs
    · rw [sound.leave_enqueued none' absent]
      exact ⟨sound, Nat.add_zero _⟩
    · have outside : p ∉ x.wait.map WaitEntry.task := by
        rw [sound.queued, absent]
        exact Bool.false_ne_true
      refine ⟨sound.sleeps none' ?_ (fun e member => ?_) (fun q => ?_) normal positive, Nat.add_zero _⟩
      · rw [List.map_append, List.map_singleton]
        exact List.nodup_append_comm.mp (List.nodup_cons.mpr ⟨outside, sound.nodup⟩)
      · rcases List.mem_append.mp member with member | member
        · exact sound.exclusive e member
        · rw [List.mem_singleton.mp member]
      · rw [List.map_append, List.mem_append, List.map_singleton, List.mem_singleton, or_comm]
  · rw [if_neg none']
    refine ⟨sound.take timeout, ?_⟩
    show x.done - 1 + taken (some (x.take timeout).2) = x.done
    rw [taken_of_pos (x.take_positive positive)]
    omega

theorem Sound.resumes (sound : x.Sound) (running : x.state p = taskRunning) {w : Sleeper} (sleeps : x.sleeper p = some w)
    {left : Int} (positive : 0 ≤ left) (signal : Bool) :
    (x.resume p w.state left signal).1.Sound ∧
      (x.resume p w.state left signal).1.done + taken (x.resume p w.state left signal).2 = x.done := by
  obtain ⟨normal, _, _⟩ := sound.asleep p w sleeps
  have inside : p ∈ x.wait.map WaitEntry.task := (sound.queued p).mpr (by rw [sleeps]; rfl)
  have left' (timeout : Int) (some' : x.done = 0 → timeout ≤ 0) (none' : x.done ≠ 0 → 0 ≤ timeout) :
      (x.leave p timeout).1.Sound ∧ (x.leave p timeout).1.done + taken (some (x.leave p timeout).2) = x.done := by
    refine ⟨sound.leave running sleeps timeout, ?_⟩
    rw [leave_eq p timeout]
    dsimp only
    by_cases zero : x.done = 0
    · rw [if_pos (.inl zero), taken_of_le (some' zero), zero]
    · have more := none' zero
      have one : 0 < if x.done = 0 ∨ timeout ≠ 0 then timeout else 1 := by
        split_ifs with some'
        · omega
        · exact Int.one_pos
      rw [taken_of_pos one]
      omega
  rw [Completion.resume]
  split_ifs with again
  · rw [sleep]
    split_ifs
    · exact left' _ (fun _ => by decide) fun some' => absurd again.1 some'
    · refine ⟨sound.sleeps again.1 sound.nodup sound.exclusive (fun q => ?_) normal positive, Nat.add_zero _⟩
      constructor
      · exact .inr
      · rintro (rfl | member)
        · exact inside
        · exact member
  · refine left' left (fun none' => ?_) fun _ => positive
    have out := not_not.mp (not_and.mp again none')
    omega

theorem Sound.step {e : CompletionEvent τ} {returned : Option Int} (sound : x.Sound)
    (step : CompletionStep x (e, returned) y) :
    y.Sound ∧ (x.done + e.signals < 2 ^ 32 → y.done + taken returned = x.done + e.signals) := by
  obtain ⟨allowed, performed⟩ := step
  obtain rfl : (e.perform x).1 = y := congrArg Prod.fst performed
  obtain rfl : (e.perform x).2 = returned := congrArg Prod.snd performed
  cases e with
  | complete => exact ⟨sound.complete, fun few => (Nat.add_zero _).trans (Nat.mod_eq_of_lt few)⟩
  | completeAll =>
    refine ⟨sound.completeAll, fun few => ?_⟩
    rw [Nat.add_comm, CompletionEvent.signals] at few
    exact (Nat.mod_eq_of_lt few).trans (Nat.add_comm ..)
  | tryWait =>
    rw [CompletionEvent.perform, tryWaitForCompletion]
    split_ifs with none'
    · exact ⟨sound, fun _ => rfl⟩
    · refine ⟨sound.take 1, fun _ => ?_⟩
      show x.done - 1 + 1 = x.done
      omega
  | wait p state timeout signal =>
    obtain ⟨absent, _, normal, positive⟩ := allowed
    obtain ⟨sound', count⟩ := sound.waits signal absent normal positive
    exact ⟨sound', fun _ => count⟩
  | resume p left signal =>
    obtain ⟨running, w, sleeps, positive, _⟩ := allowed
    obtain ⟨sound', count⟩ := sound.resumes running sleeps positive signal
    rw [CompletionEvent.perform, sleeps]
    exact ⟨sound', fun _ => count⟩
  | wake p => exact ⟨sound.wake p, fun _ => rfl⟩
  | elsewhere p state => exact ⟨sound.elsewhere allowed state, fun _ => rfl⟩

/-- How the queue changes in a step: a task comes last, or one leaves. -/
theorem Sound.wait_step {e : CompletionEvent τ} {returned : Option Int} (sound : x.Sound)
    (step : CompletionStep x (e, returned) y) : x.wait <+: y.wait ∨ ∃ p, y.wait = x.wait.filter (·.task ≠ p) := by
  obtain ⟨allowed, performed⟩ := step
  obtain rfl : (e.perform x).1 = y := congrArg Prod.fst performed
  cases e with
  | complete | completeAll | wake | elsewhere =>
    exact .inl (List.prefix_refl _)
  | tryWait =>
    rw [CompletionEvent.perform, tryWaitForCompletion]
    split_ifs
    · exact .inl (List.prefix_refl _)
    · exact .inl (List.prefix_refl _)
  | wait p state timeout signal =>
    rw [CompletionEvent.perform, waitForCommon, sleep]
    split_ifs with none'
    · rw [sound.leave_enqueued none' allowed.1]
      exact .inl (List.prefix_refl _)
    · exact .inl (List.prefix_append ..)
    · exact .inl (List.prefix_refl _)
  | resume p left signal =>
    obtain ⟨_, w, sleeps, _⟩ := allowed
    rw [CompletionEvent.perform, sleeps]
    dsimp only
    rw [Completion.resume, sleep]
    split_ifs
    · rw [leave_eq p]
      exact .inr ⟨p, rfl⟩
    · exact .inl (List.prefix_refl _)
    · rw [leave_eq p]
      exact .inr ⟨p, rfl⟩

end

end Completion

/-! ## Runs -/

def signalled : List (CompletionEvent τ × Option Int) → Nat
  | [] => 0
  | (e, _) :: rest => e.signals + signalled rest

def handedOut : List (CompletionEvent τ × Option Int) → Nat
  | [] => 0
  | (_, returned) :: rest => Completion.taken returned + handedOut rest

section
variable [DecidableEq τ] {x y : Completion τ} {labels more : List (CompletionEvent τ × Option Int)} {p q : τ}

theorem Completion.Sound.run (sound : x.Sound) (run : Run CompletionStep x labels y) : y.Sound :=
  run.invariant Completion.Sound (fun sound step => (sound.step step).1) sound

theorem Completion.Sound.conserved (sound : x.Sound) (run : Run CompletionStep x labels y)
    (few : x.done + signalled labels < 2 ^ 32) : y.done + handedOut labels = x.done + signalled labels := by
  induction run with
  | nil => rfl
  | @cons x m y label labels first _ ih =>
    obtain ⟨e, returned⟩ := label
    rw [signalled] at few ⊢
    rw [handedOut]
    obtain ⟨sound', count⟩ := sound.step first
    have count := count (by omega)
    have rest := ih sound' (by omega)
    omega

/-- As many calls have returned that they got one as were signalled, less those that are left:
none is given out twice or dropped when a wait times out or is interrupted. -/
theorem completions_conserved (run : Run CompletionStep .init labels x) (few : signalled labels < 2 ^ 32) :
    x.done + handedOut labels = signalled labels := by
  have total := Completion.sound_init.conserved run (by rwa [Completion.init, Nat.zero_add])
  rwa [Completion.init, Nat.zero_add] at total

/-- The time of a task is up when it is served. -/
def timeIsUp : List (CompletionEvent Nat × Option Int) :=
  [(.wait 1 taskUninterruptible 5 false, none), (.complete, none), (.resume 1 0 false, some 1)]

theorem completions_conserved_timeIsUp : ∃ x : Completion Nat, Run CompletionStep .init timeIsUp x ∧
    x.done + handedOut timeIsUp = signalled timeIsUp ∧ signalled timeIsUp = 1 := by
  have run := Run.cons
    (show CompletionStep (.init : Completion Nat) (.wait 1 taskUninterruptible 5 false, none) _ from
      ⟨⟨rfl, rfl, by decide, by decide⟩, rfl⟩)
    (.cons (show CompletionStep _ (.complete, none) _ from ⟨trivial, rfl⟩)
      (.cons (show CompletionStep _ (.resume 1 0 false, some 1) _ from ⟨⟨rfl, _, rfl, by decide, by decide⟩, rfl⟩) (.nil _)))
  exact ⟨_, run, completions_conserved run (by decide), rfl⟩

/-- No completion waits for a task that sleeps: as many tasks of the queue as can be served are
awake, and each gets one when it goes on, also when its time is up or a signal is pending. -/
theorem no_completion_lost (run : Run CompletionStep .init labels x) : min x.done x.wait.length ≤ x.awake ∧
    (x.done ≠ 0 → ∀ p left signal, (CompletionEvent.resume p left signal).Allowed x →
      ∃ value, 0 < value ∧ ((CompletionEvent.resume p left signal).perform x).2 = some value) := by
  have sound := Completion.sound_init.run run
  refine ⟨sound.served, fun some' p left signal allowed => ?_⟩
  obtain ⟨_, w, sleeps, positive, _⟩ := allowed
  rw [CompletionEvent.perform, sleeps]
  dsimp only
  rw [Completion.resume, if_neg fun again => some' again.1, Completion.leave_eq p left]
  refine ⟨_, ?_, rfl⟩
  split_ifs with timeout
  · have more := timeout.resolve_left some'
    omega
  · exact Int.one_pos

def bothSleep : Completion Nat :=
  ((Completion.init.waitForCommon 1 taskUninterruptible 5 false).1.waitForCommon 2 taskInterruptible 5 false).1

theorem run_bothSleep : Run CompletionStep .init
    [(.wait 1 taskUninterruptible 5 false, none), (.wait 2 taskInterruptible 5 false, none)] bothSleep :=
  .cons ⟨⟨rfl, rfl, by decide, by decide⟩, rfl⟩ (.cons ⟨⟨rfl, rfl, by decide, by decide⟩, rfl⟩ (.nil _))

/-- After one signal the first task is awake, and is served although its time is up. -/
theorem no_completion_lost_bothSleep : min 1 2 ≤ bothSleep.complete.awake ∧
    ∃ value, 0 < value ∧ ((CompletionEvent.resume 1 0 false).perform bothSleep.complete).2 = some value := by
  have run := run_bothSleep.append (.cons (show CompletionStep _ (.complete, none) _ from ⟨trivial, rfl⟩) (.nil _))
  obtain ⟨awake, served⟩ := no_completion_lost run
  exact ⟨awake, served (by decide) 1 0 false ⟨rfl, _, rfl, by decide, by decide⟩⟩

structure BothWait (p q : τ) (x : Completion τ) (label : CompletionEvent τ × Option Int) (y : Completion τ) : Prop where
  step : CompletionStep x label y
  first : (y.sleeper p).isSome
  second : (y.sleeper q).isSome

theorem ahead_of_step (sound : x.Sound) {label : CompletionEvent τ × Option Int} (step : BothWait p q x label y)
    (ahead : [p, q].Sublist (x.wait.map WaitEntry.task)) : [p, q].Sublist (y.wait.map WaitEntry.task) := by
  have sound' := (sound.step step.step).1
  have first := (sound'.queued p).mpr step.first
  have second := (sound'.queued q).mpr step.second
  rcases sound.wait_step step.step with longer | ⟨r, left⟩
  · exact ahead.trans (longer.map WaitEntry.task).sublist
  · have kept (s : τ) (member : s ∈ y.wait.map WaitEntry.task) : s ≠ r := by
      rintro rfl
      obtain ⟨e, inside, same⟩ := List.mem_map.mp member
      rw [left] at inside
      exact of_decide_eq_true (List.mem_filter.mp inside).2 same
    have whole : [p, q].filter (· ≠ r) = [p, q] :=
      List.filter_eq_self.mpr fun s member => by
        rcases List.mem_pair.mp member with rfl | rfl
        · exact decide_eq_true (kept _ first)
        · exact decide_eq_true (kept _ second)
    have sub := ahead.filter (· ≠ r)
    rw [whole, List.filter_map] at sub
    rwa [left]

theorem ahead_of_run (sound : x.Sound) (run : Run (BothWait p q) x more y)
    (ahead : [p, q].Sublist (x.wait.map WaitEntry.task)) :
    y.Sound ∧ [p, q].Sublist (y.wait.map WaitEntry.task) := by
  induction run with
  | nil => exact ⟨sound, ahead⟩
  | cons first _ ih => exact ih (sound.step first.step).1 (ahead_of_step sound first ahead)

/-- `complete` wakes nobody while a task sleeps that is ahead in the queue. -/
theorem Completion.Sound.complete_in_order (sound : x.Sound) (ahead : [p, q].Sublist (x.wait.map WaitEntry.task))
    (asleep : x.state q ≠ taskRunning) (woken : x.complete.state q = taskRunning) : x.state p = taskRunning := by
  have result : wakeUpCommon taskNormal x.wait 1 x.state q = taskRunning := woken
  rcases wakeUpCommon_one taskNormal x.state sound.exclusive with ⟨same, _⟩ | ⟨front, e, back, split, before, _, one⟩
  · rw [same] at result
    exact absurd result asleep
  · have here : q = e.task := by
      by_contra other
      rw [one, Function.update_of_ne other] at result
      exact asleep result
    subst here
    have nodup := sound.nodup
    rw [split, List.map_append, List.map_cons] at ahead nodup
    have once := (List.nodup_cons.mp (List.nodup_middle.mp nodup)).1
    obtain ⟨l, l', whole, left, right⟩ := List.sublist_append_iff.mp ahead
    cases l with
    | nil =>
      -- Then it would be in the queue twice.
      rw [List.nil_append] at whole
      subst whole
      have last : e.task ∈ back.map WaitEntry.task := (right.tail).subset (by simp)
      exact absurd (List.mem_append_right _ last) once
    | cons r l =>
      rw [List.cons_append] at whole
      obtain ⟨rfl, _⟩ := List.cons.inj whole
      obtain ⟨f, inside, rfl⟩ := List.mem_map.mp (left.subset List.mem_cons_self)
      exact sound.running (by simp [split, inside]) (before f inside)

/-- Threads are awakened in the order in which they were queued: of two tasks that wait, the
one that came first stays ahead, and `complete` does not wake the other one while it sleeps. -/
theorem awakened_in_order (run : Run CompletionStep .init labels x) (rest : Run (BothWait p q) x more y)
    (ahead : [p, q].Sublist (x.wait.map WaitEntry.task)) :
    [p, q].Sublist (y.wait.map WaitEntry.task) ∧
      (y.state q ≠ taskRunning → y.complete.state q = taskRunning → y.state p = taskRunning) := by
  obtain ⟨sound, stays⟩ := ahead_of_run (Completion.sound_init.run run) rest ahead
  exact ⟨stays, sound.complete_in_order stays⟩

/-- The first task is woken and goes back to sleep, as a caller that never slept was served
before it. It is still the first. -/
theorem awakened_in_order_overtaken : ∃ y : Completion Nat,
    Run (BothWait 1 2) bothSleep [(.complete, none), (.tryWait, some 1), (.resume 1 5 false, none), (.complete, none)] y ∧
      [1, 2].Sublist (y.wait.map WaitEntry.task) ∧
      (y.state 2 ≠ taskRunning ∧ y.complete.state 2 = taskRunning) ∧ y.state 1 = taskRunning := by
  have rest := Run.cons
    (show BothWait 1 2 bothSleep (.complete, none) _ from ⟨⟨trivial, rfl⟩, rfl, rfl⟩)
    (.cons (show BothWait 1 2 _ (.tryWait, some 1) _ from ⟨⟨trivial, rfl⟩, rfl, rfl⟩)
      (.cons (show BothWait 1 2 _ (.resume 1 5 false, none) _ from
        ⟨⟨⟨rfl, _, rfl, by decide, by decide⟩, rfl⟩, rfl, rfl⟩)
        (.cons (show BothWait 1 2 _ (.complete, none) _ from ⟨⟨trivial, rfl⟩, rfl, rfl⟩) (.nil _))))
  obtain ⟨stays, inTurn⟩ := awakened_in_order run_bothSleep rest (List.Sublist.refl _)
  exact ⟨_, rest, stays, ⟨by decide, rfl⟩, inTurn (by decide) rfl⟩

end

end Cs544.Sched
