import Cs544.Sched.RtBandwidthInvariant

/-! Throttled CPUs, over whole runs.

The period timer is what releases a throttled CPU. It does not stop while there is one.
-/

set_option autoImplicit false

namespace Cs544.Sched

open Cs544.Library Bandwidth

variable {n : Nat} {s t : Bandwidth n} {i j self own iter : Fin n} {l mask : List (Fin n)} {overrun deltaExec : Int}
  {weight : Nat}

/-! ## The period -/

/-- How an iteration of the loop changes the run queues: a throttled one may be released,
and then it is rescheduled if it has tasks. -/
structure Ticked (s t : Bandwidth n) : Prop where
  rtNrRunning : ∀ i, (t.rq i).rtNrRunning = (s.rq i).rtNrRunning
  throttled : ∀ i, (t.rq i).rtThrottled → (s.rq i).rtThrottled
  rtTime : ∀ i, 0 ≤ (s.rq i).rtTime → 0 ≤ (t.rq i).rtTime ∧ (t.rq i).rtTime ≤ (s.rq i).rtTime
  needResched : ∀ i, (s.rq i).needResched → (t.rq i).needResched
  released : ∀ i, (s.rq i).rtThrottled → (t.rq i).rtThrottled = false → (s.rq i).rtNrRunning ≠ 0 →
    (t.rq i).needResched

namespace Ticked

theorem refl (s : Bandwidth n) : Ticked s s where
  rtNrRunning _ := rfl
  throttled _ := id
  rtTime _ nonneg := ⟨nonneg, Int.le_refl _⟩
  needResched _ := id
  released i throttled free := by simp [throttled] at free

theorem trans {u : Bandwidth n} (first : Ticked s t) (second : Ticked t u) : Ticked s u where
  rtNrRunning i := (second.rtNrRunning i).trans (first.rtNrRunning i)
  throttled i later := first.throttled i (second.throttled i later)
  rtTime i nonneg := by
    have before := first.rtTime i nonneg
    have after := second.rtTime i before.1
    exact ⟨after.1, after.2.trans before.2⟩
  needResched i waits := second.needResched i (first.needResched i waits)
  released i throttled free waiting := by
    cases between : (t.rq i).rtThrottled with
    | false => exact second.needResched i (first.released i throttled between waiting)
    | true => exact second.released i between free (by rwa [first.rtNrRunning])

theorem of_moved (moved : Moved s t) : Ticked s t where
  rtNrRunning := moved.rtNrRunning
  throttled i throttled := by rwa [moved.rtThrottled] at throttled
  rtTime i nonneg := by
    rw [moved.rtTime]
    exact ⟨nonneg, Int.le_refl _⟩
  needResched i waits := by rwa [moved.needResched]
  released i throttled free := by
    rw [moved.rtThrottled, throttled] at free
    cases free

theorem of_set {rq : RtRq} (rtNrRunning : rq.rtNrRunning = (s.rq i).rtNrRunning)
    (throttled : rq.rtThrottled → (s.rq i).rtThrottled)
    (rtTime : 0 ≤ (s.rq i).rtTime → 0 ≤ rq.rtTime ∧ rq.rtTime ≤ (s.rq i).rtTime)
    (needResched : (s.rq i).needResched → rq.needResched)
    (released : (s.rq i).rtThrottled → rq.rtThrottled = false → (s.rq i).rtNrRunning ≠ 0 → rq.needResched) :
    Ticked s (s.set i rq) := by
  have other (j : Fin n) (here : j ≠ i) : (s.set i rq).rq j = s.rq j := s.set_of_ne rq here
  refine ⟨fun j => ?_, fun j => ?_, fun j => ?_, fun j => ?_, fun j => ?_⟩ <;>
    rcases eq_or_ne j i with rfl | here
  all_goals first
    | rw [set_self]
      assumption
    | rw [other j here]
  · exact id
  · exact fun nonneg => ⟨nonneg, Int.le_refl _⟩
  · exact id
  · intro held free
    rw [held] at free
    cases free

end Ticked

section
variable {rq : RtRq}

@[simp] theorem enqueue_rtRuntime : rq.enqueue.rtRuntime = rq.rtRuntime := by rw [RtRq.enqueue]; split_ifs <;> rfl

@[simp] theorem enqueue_rtTime : rq.enqueue.rtTime = rq.rtTime := by rw [RtRq.enqueue]; split_ifs <;> rfl

@[simp] theorem enqueue_rtThrottled : rq.enqueue.rtThrottled = rq.rtThrottled := by
  rw [RtRq.enqueue]; split_ifs <;> rfl

@[simp] theorem enqueue_rtNrRunning : rq.enqueue.rtNrRunning = rq.rtNrRunning := by
  rw [RtRq.enqueue]; split_ifs <;> rfl

@[simp] theorem enqueue_rd : rq.enqueue.rd = rq.rd := by rw [RtRq.enqueue]; split_ifs <;> rfl

theorem enqueue_needResched (before : rq.needResched ∨ rq.rtNrRunning ≠ 0) : rq.enqueue.needResched := by
  rw [RtRq.enqueue]
  split_ifs with waiting
  · rfl
  · exact before.resolve_right waiting

/-- What is left of the time of a run queue, and whether it is released. -/
theorem forgiveTime_spec (overrun : Int) (nonneg : 0 ≤ rq.rtTime) :
    (forgiveTime overrun rq).rtRuntime = rq.rtRuntime ∧ (forgiveTime overrun rq).rd = rq.rd ∧
      (forgiveTime overrun rq).rtNrRunning = rq.rtNrRunning ∧
      (0 ≤ (forgiveTime overrun rq).rtTime ∧ (forgiveTime overrun rq).rtTime ≤ rq.rtTime) ∧
      ((forgiveTime overrun rq).rtThrottled ↔ rq.rtThrottled ∧ rq.rtRuntime ≤ (forgiveTime overrun rq).rtTime) := by
  have runtime : 0 ≤ overrun * rq.rtRuntime % 2 ^ 64 := Int.emod_nonneg _ (by decide)
  dsimp only [forgiveTime]
  split_ifs with release
  · simp only [enqueue_rtRuntime, enqueue_rd, enqueue_rtNrRunning, enqueue_rtTime, enqueue_rtThrottled]
    refine ⟨trivial, trivial, trivial, by omega, ?_⟩
    simp only [Bool.false_eq_true, false_iff, not_and, not_le]
    exact fun _ => release.2
  · refine ⟨rfl, rfl, rfl, by dsimp only; omega, ?_⟩
    exact ⟨fun throttled => ⟨throttled, not_lt.mp fun below => release ⟨throttled, below⟩⟩, And.left⟩

theorem forgiveTime_rtTime (overrun : Int) (rq : RtRq) : (forgiveTime overrun rq).rtTime =
    rq.rtTime - min rq.rtTime (overrun * rq.rtRuntime % 2 ^ 64) := by
  dsimp only [forgiveTime]
  split_ifs
  · rw [enqueue_rtTime]
  · rfl

theorem forgiveTime_needResched (waits : rq.needResched) : (forgiveTime overrun rq).needResched := by
  dsimp only [forgiveTime]
  split_ifs
  · exact enqueue_needResched (.inl waits)
  · exact waits

theorem forgiveTime_released (throttled : rq.rtThrottled) (free : (forgiveTime overrun rq).rtThrottled = false)
    (waiting : rq.rtNrRunning ≠ 0) : (forgiveTime overrun rq).needResched := by
  dsimp only [forgiveTime] at free ⊢
  split_ifs with release
  · exact enqueue_needResched (.inr waiting)
  · rw [if_neg release] at free
    have still : rq.rtThrottled = false := free
    rw [throttled] at still
    cases still

theorem forgiveTime_throttled_pos (nonneg : 0 ≤ rq.rtRuntime) (time : 0 ≤ rq.rtTime)
    (pending : rq.rtThrottled → 0 < rq.rtTime) (still : (forgiveTime overrun rq).rtThrottled) :
    0 < (forgiveTime overrun rq).rtTime := by
  obtain ⟨throttled, beyond⟩ := (forgiveTime_spec overrun time).2.2.2.2.mp still
  rcases eq_or_lt_of_le nonneg with zero | positive
  · have all := pending throttled
    dsimp only [forgiveTime] at beyond ⊢
    rw [← zero, Int.mul_zero, Int.zero_emod]
    split_ifs <;> simp only [enqueue_rtTime] <;> omega
  · omega

end

namespace Conserved

theorem refillRuntime (conserved : Conserved s) : Conserved (refillRuntime self i s) := by
  rw [Sched.refillRuntime]
  split_ifs
  · exact (borrowed_balanceRuntime conserved).conserved
  · exact conserved

theorem forgiveTime (conserved : Conserved s) (overrun : Int) (i : Fin n) :
    Keeps s (s.set i (forgiveTime overrun (s.rq i))) := by
  have range := conserved.time i
  obtain ⟨runtime, rd, _, time, _⟩ := forgiveTime_spec overrun range.1
  exact conserved.touch runtime rd ⟨time.1, by omega⟩
    (forgiveTime_throttled_pos (conserved.runtime i).1 range.1 (conserved.throttled i))

theorem enqueue (conserved : Conserved s) (i : Fin n) : Keeps s (s.set i (s.rq i).enqueue) :=
  conserved.touch enqueue_rtRuntime enqueue_rd (by rw [enqueue_rtTime]; exact conserved.time i)
    (by rw [enqueue_rtThrottled, enqueue_rtTime]; exact conserved.throttled i)

theorem periodTick (overrun : Int) (conserved : Conserved s) : Conserved (periodTick self overrun i s).1 := by
  rw [Sched.periodTick]
  split_ifs with time waiting throttled
  · exact ((conserved.refillRuntime).forgiveTime overrun i).conserved
  · exact conserved
  · exact (conserved.enqueue i).conserved
  · exact conserved

end Conserved

theorem moved_refillRuntime (conserved : Conserved s) : Moved s (refillRuntime self i s) := by
  rw [refillRuntime]
  split_ifs
  · exact (borrowed_balanceRuntime conserved).moved
  · exact .refl s

theorem ticked_forgiveTime (time : 0 ≤ (s.rq i).rtTime) : Ticked s (s.set i (forgiveTime overrun (s.rq i))) := by
  obtain ⟨_, _, tasks, left, throttled⟩ := forgiveTime_spec overrun time
  exact .of_set tasks (fun still => (throttled.mp still).1) (fun _ => left) forgiveTime_needResched
    forgiveTime_released

theorem ticked_periodTick (conserved : Conserved s) : Ticked s (periodTick self overrun i s).1 := by
  have moved : Moved s (refillRuntime self i s) := moved_refillRuntime conserved
  rw [periodTick]
  split_ifs with time waiting throttled
  · refine (Ticked.of_moved moved).trans (ticked_forgiveTime ?_)
    rw [moved.rtTime]
    exact (conserved.time i).1
  · exact .refl s
  · refine .of_set enqueue_rtNrRunning ?_ ?_ ?_ ?_
    · rw [enqueue_rtThrottled]
      exact id
    · rw [enqueue_rtTime]
      exact fun nonneg => ⟨nonneg, Int.le_refl _⟩
    · exact fun waits => enqueue_needResched (.inl waits)
    · exact fun held => absurd held throttled
  · exact .refl s

/-- The run queue of a CPU has nothing to be forgiven and nobody waiting. -/
structure Idle (s : Bandwidth n) (i : Fin n) : Prop where
  rtThrottled : (s.rq i).rtThrottled = false
  rtTime : (s.rq i).rtTime = 0
  rtNrRunning : (s.rq i).rtNrRunning = 0

theorem Ticked.idle (ticked : Ticked s t) (idle : Idle s i) : Idle t i where
  rtThrottled := by
    cases later : (t.rq i).rtThrottled with
    | false => rfl
    | true => rw [← idle.rtThrottled, ticked.throttled i later]
  rtTime := by
    have time := idle.rtTime
    have left := ticked.rtTime i (by omega)
    omega
  rtNrRunning := (ticked.rtNrRunning i).trans idle.rtNrRunning

theorem idle_periodTick (conserved : Conserved s) (idle : (periodTick self overrun i s).2) :
    Idle (periodTick self overrun i s).1 i := by
  rw [periodTick] at idle ⊢
  split_ifs at idle ⊢ with time waiting
  · obtain ⟨none', nobody⟩ := of_decide_eq_true idle
    refine ⟨?_, by rwa [set_self], by rwa [set_self]⟩
    have pending := (conserved.refillRuntime.forgiveTime (s := refillRuntime self i s) overrun i).conserved.throttled i
    rw [set_self] at pending ⊢
    cases still : (forgiveTime overrun ((refillRuntime self i s).rq i)).rtThrottled with
    | false => rfl
    | true => exact absurd (pending still) (by omega)
  · refine ⟨?_, by simpa using time, by simpa using waiting⟩
    cases still : (s.rq i).rtThrottled with
    | false => rfl
    | true =>
      have pending := conserved.throttled i still
      omega

theorem periodLoop_spec (self : Fin n) (overrun : Int) (mask : List (Fin n)) (conserved : Conserved s) :
    Ticked s (periodLoop self overrun mask s).1 ∧
      ((periodLoop self overrun mask s).2 = true → ∀ i ∈ mask, Idle (periodLoop self overrun mask s).1 i) := by
  induction mask generalizing s with
  | nil => exact ⟨.refl s, fun _ => nofun⟩
  | cons i rest ih =>
    have first : Ticked s (periodTick self overrun i s).1 := ticked_periodTick conserved
    obtain ⟨ticked, idle⟩ := ih (conserved.periodTick overrun)
    refine ⟨first.trans ticked, fun stops j member => ?_⟩
    obtain ⟨alone, others⟩ := Bool.and_eq_true_iff.mp stops
    rcases List.mem_cons.mp member with rfl | member
    · exact ticked.idle (idle_periodTick conserved alone)
    · exact idle others j member

/-! ## Runs -/

/-- The invariant holds after every event, and what root domains have together stays as it is
while borrowing stays within. -/
theorem keeps_step {e : BandwidthEvent n} (conserved : Conserved s) (step : BandwidthStep s e t) :
    Conserved t ∧ (e.Within s → Keeps s t) := by
  obtain ⟨allowed, performed⟩ := step
  have settled (keeps : Keeps s t) : Conserved t ∧ (e.Within s → Keeps s t) := ⟨keeps.conserved, fun _ => keeps⟩
  cases e with
  | charge i deltaExec =>
    cases performed
    exact settled (conserved.charge allowed.1 allowed.2)
  | balance self own =>
    cases performed
    have borrowed := borrowed_doBalanceRuntime conserved self allowed
    refine ⟨borrowed.conserved, fun within => ⟨borrowed.conserved, fun P even => ?_⟩⟩
    by_cases lends : (s.rq own).Lends
    · refine borrowed.moved.even (borrowed.total P fun i member => ?_) even
      rw [mem_span.mp member, within lends]
    · rwa [doBalanceRuntime, balanceLoop_unlimited (conserved.unlimited (allowed (not_not.mp lends)))]
  | throttle i =>
    cases performed
    exact settled (conserved.throttle i)
  | resched i =>
    cases performed
    exact settled (conserved.touch rfl rfl (conserved.time i) (conserved.throttled i))
  | forgive i overrun =>
    cases performed
    exact settled (conserved.forgiveTime overrun i)
  | requeue i =>
    cases performed
    exact settled (conserved.enqueue i)
  | disable i => exact settled (conserved.disableRuntime allowed performed)
  | enable i =>
    cases performed
    exact settled (conserved.enableRuntime allowed.1 allowed.2)
  | proc period runtime =>
    cases performed
    exact settled (conserved.proc allowed period runtime)
  | handler =>
    cases performed
    exact settled conserved.schedRtHandler
  | boot =>
    cases performed
    exact settled ⟨{ conserved with }, fun _ => id⟩
  | attach i rd =>
    cases performed
    exact settled (conserved.settle allowed allowed (conserved.time i) (conserved.throttled i))
  | setOnline i online =>
    cases performed
    exact settled (conserved.touch rfl rfl (conserved.time i) (conserved.throttled i))
  | tasks i rtNrRunning =>
    cases performed
    exact settled (conserved.touch rfl rfl (conserved.time i) (conserved.throttled i))

theorem conserved_step {e : BandwidthEvent n} (conserved : Conserved s) (step : BandwidthStep s e t) : Conserved t :=
  (keeps_step conserved step).1

/-- A step in which nobody borrows from another root domain. -/
def WithinStep (s : Bandwidth n) (e : BandwidthEvent n) (t : Bandwidth n) : Prop := e.Within s ∧ BandwidthStep s e t

section
variable {period runtime : BitVec 32} {rd : Fin n → Nat} {events : List (BandwidthEvent n)}

theorem conserved_run (few : n ≤ 2 ^ 22) (run : Run BandwidthStep (initRtRq period runtime rd) events t) :
    Conserved t :=
  run.invariant Conserved conserved_step (conserved_initRtRq few period runtime rd).1

theorem even_run (few : n ≤ 2 ^ 22) (run : Run WithinStep (initRtRq period runtime rd) events t) :
    Conserved t ∧ ∀ P : Nat → Bool, Even P t := by
  refine run.invariant (fun s => Conserved s ∧ ∀ P : Nat → Bool, Even P s) ?_ (conserved_initRtRq few period runtime rd)
  rintro s e t ⟨conserved, even⟩ ⟨within, step⟩
  have keeps := (keeps_step conserved step).2 within
  exact ⟨keeps.conserved, fun P => keeps.even P (even P)⟩

/-- The CPUs of these root domains whose run time may be lent. -/
def Bandwidth.lenders (s : Bandwidth n) (P : Nat → Bool) : Finset (Fin n) :=
  Finset.univ.filter fun i => P (s.rq i).rd ∧ (s.rq i).Lends

theorem Even.sum_lenders {P : Nat → Bool} (even : Even P s) :
    ∑ i ∈ s.lenders P, (s.rq i).rtRuntime = (s.lenders P).card * s.given := by
  rw [Even, held, held] at even
  simp only [granted, share, ← Finset.sum_filter] at even
  rw [lenders, even, Finset.sum_const, nsmul_eq_mul]

/-- In every run, all CPUs have together what they were given. While nobody borrows from
another root domain, so have the CPUs of each, and a CPU that goes offline is not left
wanting. -/
theorem no_runtime_leaks (few : n ≤ 2 ^ 22) (run : Run BandwidthStep (initRtRq period runtime rd) events t) :
    ∑ i ∈ t.lenders everywhere, (t.rq i).rtRuntime = (t.lenders everywhere).card * t.given ∧
      (∀ i, 0 ≤ (t.rq i).rtRuntime ∧ (t.rq i).rtRuntime ≤ runtimeInf) ∧
      (Run WithinStep (initRtRq period runtime rd) events t →
        (∀ P : Nat → Bool, ∑ i ∈ t.lenders P, (t.rq i).rtRuntime = (t.lenders P).card * t.given) ∧
          (t.handler ≠ .constrained → ∀ i, (disableRuntime i t).isSome)) := by
  have conserved := conserved_run few run
  refine ⟨conserved.total.sum_lenders, conserved.runtime, fun within => ?_⟩
  have even := (even_run few within).2
  exact ⟨fun P => (even P).sum_lenders, fun whole i => disableRuntime_isSome conserved whole (even _)⟩

end

/-- Four CPUs may run for 40 microseconds in 100. CPU 0 borrows from the other two of its root
domain, of which one goes offline. -/
theorem run_borrowing : ∃ t : Bandwidth 4, Run WithinStep (initRtRq 100 40 fun i => if i.val = 3 then 1 else 0)
      [.boot, .charge 0 90000, .balance 0 0, .throttle 0, .disable 1] t ∧
    (t.rq 0).rtRuntime = 53333 ∧ (t.rq 1).rtRuntime = runtimeInf ∧ (t.rq 2).rtRuntime = 26667 ∧ t.handler = .idle := by
  refine ⟨_, .cons ⟨trivial, trivial, rfl⟩ (.cons ⟨trivial, by decide, rfl⟩ (.cons ⟨by decide, by decide, rfl⟩
    (.cons ⟨trivial, trivial, rfl⟩ (.cons ⟨trivial, by decide, rfl⟩ (.nil _))))), ?_⟩
  decide

theorem no_runtime_leaks_borrowing : ∃ t : Bandwidth 4, (t.rq 0).rtRuntime = 53333 ∧
    (∀ P : Nat → Bool, ∑ i ∈ t.lenders P, (t.rq i).rtRuntime = (t.lenders P).card * t.given) ∧
      ∀ i, (disableRuntime i t).isSome := by
  obtain ⟨t, run, borrowed, _, _, idle⟩ := run_borrowing
  obtain ⟨_, _, each⟩ := no_runtime_leaks (by decide) (run.mono And.right)
  obtain ⟨even, wanting⟩ := each run
  exact ⟨t, borrowed, even, wanting (by rw [idle]; nofun)⟩

/-! ## The functions as runs -/

/-- What a visit of the period timer consists of. -/
def BandwidthEvent.OfTimer (overrun : Int) : BandwidthEvent n → Prop
  | balance _ _ | requeue _ => True
  | forgive _ o => o = overrun
  | _ => False

theorem balanceRuntime_run (conserved : Conserved s) (self own : Fin n) : ∃ events,
    Run BandwidthStep s events (balanceRuntime self own s) ∧ ∀ e ∈ events, e = .balance self own := by
  rw [balanceRuntime]
  split_ifs with exceeded
  · have lends := conserved.lends_of_exceeded exceeded
    exact ⟨[.balance self own], .cons ⟨fun none' => absurd none' lends, rfl⟩ (.nil _), fun e => List.mem_singleton.mp⟩
  · exact ⟨[], .nil _, fun e member => absurd member List.not_mem_nil⟩

theorem updateCurrRt_run (conserved : Conserved s) (self : Fin n) (nonneg : 0 ≤ deltaExec)
    (clock : (s.rq i).rtTime + deltaExec < 2 ^ 63) : ∃ events,
    Run BandwidthStep s events (updateCurrRt self i deltaExec s) := by
  have charged := (conserved.charge nonneg clock).conserved
  have charge (events : List (BandwidthEvent n)) {u : Bandwidth n}
      (run : Run BandwidthStep (chargeTime i deltaExec s) events u) :
      Run BandwidthStep s (.charge i deltaExec :: events) u := .cons ⟨⟨nonneg, clock⟩, rfl⟩ run
  have marked {u : Bandwidth n} : Run BandwidthStep u [.resched i] (resched i u) := .cons ⟨trivial, rfl⟩ (.nil _)
  rw [updateCurrRt]
  split_ifs with off
  · exact ⟨[], .nil s⟩
  rw [schedRtRuntimeExceeded]
  split_ifs with throttled above
  · exact ⟨_, charge _ marked⟩
  · exact ⟨_, charge _ (.nil _)⟩
  · obtain ⟨borrowing, run, _⟩ := balanceRuntime_run charged self i
    have last : Run BandwidthStep (balanceRuntime self i (chargeTime i deltaExec s)) [.throttle i]
      (throttle i (balanceRuntime self i (chargeTime i deltaExec s))).1 := .cons ⟨trivial, rfl⟩ (.nil _)
    dsimp only
    split_ifs
    · exact ⟨_, charge _ ((run.append last).append marked)⟩
    · exact ⟨_, charge _ (run.append last)⟩

theorem periodTick_run (conserved : Conserved s) (self : Fin n) (overrun : Int) (i : Fin n) : ∃ events,
    Run BandwidthStep s events (periodTick self overrun i s).1 ∧ (∀ e ∈ events, e.OfTimer overrun) ∧
      ((s.rq i).rtTime ≠ 0 → .forgive i overrun ∈ events) := by
  rw [periodTick]
  split_ifs with time waiting throttled
  · have last {u : Bandwidth n} : Run BandwidthStep u [.forgive i overrun] (u.set i (forgiveTime overrun (u.rq i))) :=
      .cons ⟨trivial, rfl⟩ (.nil _)
    rw [refillRuntime]
    split_ifs
    · obtain ⟨borrowing, run, only⟩ := balanceRuntime_run conserved self i
      refine ⟨_, run.append last, fun e member => ?_, fun _ => List.mem_append_right _ List.mem_cons_self⟩
      rcases List.mem_append.mp member with member | member
      · rw [only e member]
        trivial
      · rw [List.mem_singleton.mp member]
        rfl
    · refine ⟨_, last, fun e member => ?_, fun _ => List.mem_cons_self⟩
      rw [List.mem_singleton.mp member]
      rfl
  · exact ⟨[], .nil s, nofun, fun pending => absurd pending time⟩
  · refine ⟨[.requeue i], .cons ⟨trivial, rfl⟩ (.nil _), fun e member => ?_, fun pending => absurd pending time⟩
    rw [List.mem_singleton.mp member]
    trivial
  · exact ⟨[], .nil s, nofun, fun pending => absurd pending time⟩

theorem periodTick_rtTime (conserved : Conserved s) (other : i ≠ j) :
    ((periodTick self overrun j s).1.rq i).rtTime = (s.rq i).rtTime := by
  rw [periodTick]
  split_ifs
  · rw [set_of_ne _ _ other, (moved_refillRuntime conserved).rtTime]
  · rfl
  · rw [set_of_ne _ _ other]
  · rfl

theorem periodLoop_run (conserved : Conserved s) (self : Fin n) (overrun : Int) (mask : List (Fin n)) : ∃ events,
    Run BandwidthStep s events (periodLoop self overrun mask s).1 ∧ (∀ e ∈ events, e.OfTimer overrun) ∧
      ∀ i ∈ mask, (s.rq i).rtTime ≠ 0 → .forgive i overrun ∈ events := by
  induction mask generalizing s with
  | nil => exact ⟨[], .nil s, nofun, nofun⟩
  | cons j rest ih =>
    obtain ⟨first, run, ofTimer, visited⟩ := periodTick_run conserved self overrun j
    obtain ⟨more, run', ofTimer', visited'⟩ := ih (s := (periodTick self overrun j s).1) (conserved.periodTick overrun)
    refine ⟨first ++ more, run.append run', fun e member => ?_, fun i member pending => ?_⟩
    · exact (List.mem_append.mp member).elim (ofTimer e) (ofTimer' e)
    · by_cases here : i = j
      · subst here
        exact List.mem_append_left _ (visited pending)
      · refine List.mem_append_right _ (visited' i ((List.mem_cons.mp member).resolve_left here) ?_)
        rwa [periodTick_rtTime conserved here]

/-- The period timer visits every CPU that is online and has some time to be forgiven. -/
theorem doSchedRtPeriodTimer_run (conserved : Conserved s) (self : Fin n) (overrun : Int) : ∃ events,
    Run BandwidthStep s events (doSchedRtPeriodTimer self overrun s).1 ∧ (∀ e ∈ events, e.OfTimer overrun) ∧
      (s.rtBandwidthEnabled → s.rtB.rtRuntime ≠ runtimeInf → ∀ i, (s.rq i).online → (s.rq i).rtTime ≠ 0 →
        .forgive i overrun ∈ events) := by
  rw [doSchedRtPeriodTimer]
  split_ifs with off
  · refine ⟨[], .nil s, nofun, fun enabled limited => ?_⟩
    exact off.elim (fun disabled => by simp [disabled] at enabled) fun unlimited => absurd unlimited limited
  · obtain ⟨events, run, ofTimer, visited⟩ := periodLoop_run conserved self overrun s.cpuOnlineMask
    exact ⟨events, run, ofTimer, fun _ _ i online => visited i (by simpa [cpuOnlineMask] using online)⟩

/-! ## What the timer reports -/

section
variable {period runtime : BitVec 32} {rd : Fin n → Nat} {events : List (BandwidthEvent n)}

/-- In every run, when the period timer of a bandwidth that is enabled and limited stops,
nobody is throttled or waits, and the CPUs that it releases are rescheduled. -/
theorem timer_forgets_nobody (few : n ≤ 2 ^ 22) (run : Run BandwidthStep (initRtRq period runtime rd) events t)
    (enabled : t.rtBandwidthEnabled) (limited : t.rtB.rtRuntime ≠ runtimeInf) (self : Fin n) (overrun : Int) :
    let u := doSchedRtPeriodTimer self overrun t
    (u.2 = true → ∀ i, (t.rq i).online → Idle u.1 i) ∧
      ∀ i, (t.rq i).rtThrottled → (u.1.rq i).rtThrottled = false → (t.rq i).rtNrRunning ≠ 0 →
        (u.1.rq i).needResched := by
  have on : ¬ (t.rtBandwidthEnabled = false ∨ t.rtB.rtRuntime = runtimeInf) := by simp [enabled, limited]
  obtain ⟨ticked, idle⟩ := periodLoop_spec self overrun t.cpuOnlineMask (conserved_run few run)
  dsimp only
  rw [doSchedRtPeriodTimer, if_neg on]
  exact ⟨fun stops i online => idle stops i (by simpa [cpuOnlineMask] using online), ticked.released⟩

end

/-- Two CPUs are online, and a task runs on CPU 0. -/
def oneTask : Bandwidth 2 :=
  let s : Bandwidth 2 := initRtRq 100 40 fun _ => 0
  let s := s.set 0 { s.rq 0 with online := true }
  let s := s.set 1 { s.rq 1 with online := true }
  s.set 0 { s.rq 0 with rtNrRunning := 1 }

/-- The task has run for 250 microseconds, and the CPU has borrowed from the other one. -/
def exhausted : Bandwidth 2 := updateCurrRt 0 0 250000 oneTask

theorem run_exhausted : ∃ events, Run BandwidthStep (initRtRq 100 40 fun _ => 0) events exhausted := by
  have start : Run BandwidthStep (initRtRq 100 40 fun _ => 0) [.setOnline 0 true, .setOnline 1 true, .tasks 0 1]
      oneTask :=
    .cons ⟨trivial, rfl⟩ (.cons ⟨trivial, rfl⟩ (.cons ⟨trivial, rfl⟩ (.nil _)))
  obtain ⟨events, run⟩ : ∃ events, Run BandwidthStep oneTask events exhausted :=
    updateCurrRt_run (conserved_run (by decide) start) 0 (by decide) (by decide)
  exact ⟨_, start.append run⟩

/-- The CPU is released after ten periods, and its task is waiting. -/
theorem timer_forgets_nobody_ten_periods :
    let u := doSchedRtPeriodTimer 1 10 exhausted
    ((exhausted.rq 0).rtThrottled ∧ (u.1.rq 0).rtThrottled = false ∧ u.2 = false) ∧
      (u.2 = true → ∀ i, (exhausted.rq i).online → Idle u.1 i) ∧
      ∀ i, (exhausted.rq i).rtThrottled → (u.1.rq i).rtThrottled = false → (exhausted.rq i).rtNrRunning ≠ 0 →
        (u.1.rq i).needResched := by
  obtain ⟨events, run⟩ := run_exhausted
  exact ⟨by decide, timer_forgets_nobody (by decide) run (by decide) (by decide) 1 10⟩

/-! ## Progress -/

/-- Nobody takes run time from a CPU that it needs itself. -/
structure Spared (i : Fin n) (s t : Bandwidth n) : Prop where
  rtB : t.rtB = s.rtB
  given : t.given = s.given
  rtTime : (t.rq i).rtTime = (s.rq i).rtTime
  rtThrottled : (s.rq i).rtThrottled → (t.rq i).rtThrottled
  runtime : ∀ r, r ≤ s.rtB.rtPeriod → r ≤ (s.rq i).rtTime → r ≤ (s.rq i).rtRuntime → r ≤ (t.rq i).rtRuntime

namespace Spared

theorem refl (i : Fin n) (s : Bandwidth n) : Spared i s s := ⟨rfl, rfl, rfl, id, fun _ _ _ => id⟩

theorem trans {u : Bandwidth n} (first : Spared i s t) (second : Spared i t u) : Spared i s u where
  rtB := second.rtB.trans first.rtB
  given := second.given.trans first.given
  rtTime := second.rtTime.trans first.rtTime
  rtThrottled throttled := second.rtThrottled (first.rtThrottled throttled)
  runtime r period time runtime :=
    second.runtime r (first.rtB ▸ period) (first.rtTime ▸ time) (first.runtime r period time runtime)

theorem of_set {rq : RtRq} (here : i = j → rq.rtRuntime = (s.rq j).rtRuntime ∧ rq.rtTime = (s.rq j).rtTime ∧
    ((s.rq j).rtThrottled → rq.rtThrottled)) : Spared i s (s.set j rq) := by
  by_cases own : i = j
  · obtain ⟨runtime, time, throttled⟩ := here own
    subst own
    refine ⟨rfl, rfl, ?_, ?_, fun r _ _ => ?_⟩ <;> rw [set_self]
    · exact time
    · exact throttled
    · rw [runtime]
      exact id
  · have same : (s.set j rq).rq i = s.rq i := s.set_of_ne rq own
    refine ⟨rfl, rfl, ?_, ?_, fun r _ _ => ?_⟩ <;> rw [same]
    · exact id
    · exact id

/-- What is borrowed is spare time, and no more than what is missing to a period. -/
theorem lend (conserved : Conserved s) (lender : (s.rq iter).Lends) (borrower : (s.rq own).Lends) (apart : iter ≠ own)
    (spare : s64 ((s.rq iter).rtRuntime - (s.rq iter).rtTime) > 0) :
    Spared i s ((s.addRuntime iter (-borrowedTime s weight own iter)).addRuntime own (borrowedTime s weight own iter)) := by
  have range := borrowedTime_range weight conserved lender borrower apart spare
  obtain ⟨_, moved, _⟩ := conserved.lend lender borrower apart range.1 range.2
  refine ⟨moved.rtB, moved.given, moved.rtTime i, fun throttled => ?_, fun r period time runtime => ?_⟩
  · rwa [moved.rtThrottled]
  have signed := conserved.s64_spare lender
  rw [signed] at spare
  have part : 0 ≤ ((s.rq iter).rtRuntime - (s.rq iter).rtTime) / weight := Int.ediv_nonneg (by omega) (by omega)
  have whole : ((s.rq iter).rtRuntime - (s.rq iter).rtTime) / weight ≤ (s.rq iter).rtRuntime - (s.rq iter).rtTime :=
    Int.ediv_le_self _ (by omega)
  by_cases here : i = own
  · subst here
    rw [addRuntime_self, s.addRuntime_of_ne _ (Ne.symm apart)]
    dsimp only [borrowedTime]
    rw [signed]
    split_ifs <;> omega
  · rw [addRuntime_of_ne _ _ here]
    by_cases there : i = iter
    · subst there
      rw [addRuntime_self]
      dsimp only [borrowedTime]
      rw [signed]
      split_ifs <;> omega
    · rwa [s.addRuntime_of_ne _ there]

theorem balanceLoop (conserved : Conserved s) (borrower : (s.rq own).Lends) :
    Spared i s (balanceLoop weight own l s) := by
  induction l generalizing s with
  | nil => exact .refl i s
  | cons iter rest ih =>
    rw [Sched.balanceLoop]
    dsimp only
    split_ifs with skip spare full
    · exact ih conserved borrower
    · exact .lend conserved (not_or.mp skip).2 borrower (not_or.mp skip).1 spare
    · obtain ⟨apart, lender⟩ := not_or.mp skip
      have range := borrowedTime_range weight conserved lender borrower apart spare
      obtain ⟨kept, moved, _⟩ := conserved.lend lender borrower apart range.1 range.2
      exact (lend conserved lender borrower apart spare).trans (ih kept ((moved.lends own).mpr borrower))
    · exact ih conserved borrower

theorem doBalanceRuntime (conserved : Conserved s) (limit : (s.rq own).rtRuntime = runtimeInf → s.given = runtimeInf) :
    Spared i s (doBalanceRuntime self own s) := by
  rw [Sched.doBalanceRuntime]
  by_cases borrower : (s.rq own).Lends
  · exact balanceLoop conserved borrower
  · rw [balanceLoop_unlimited (conserved.unlimited (limit (not_not.mp borrower)))]
    exact .refl i s

end Spared

/-- A throttled CPU that has at most `left` to be forgiven, at least `r` of it in each
period. -/
structure Waiting (i : Fin n) (r left : Int) (s : Bandwidth n) : Prop where
  throttled : (s.rq i).rtThrottled
  period : r ≤ s.rtB.rtPeriod
  runtime : min r (s.rq i).rtTime ≤ (s.rq i).rtRuntime
  rtTime : (s.rq i).rtTime ≤ left

namespace Waiting

variable {r left : Int}

theorem spared (waiting : Waiting i r left s) (spared : Spared i s t) : Waiting i r left t where
  throttled := spared.rtThrottled waiting.throttled
  period := by
    rw [spared.rtB]
    exact waiting.period
  runtime := by
    rw [spared.rtTime]
    exact spared.runtime _ ((min_le_left ..).trans waiting.period) (min_le_right ..) waiting.runtime
  rtTime := by
    rw [spared.rtTime]
    exact waiting.rtTime

/-- When the timer visits the CPU, it is released or `r` is forgiven. -/
theorem forgive (waiting : Waiting i r left s) (conserved : Conserved s) (positive : 0 < r)
    (some' : 1 ≤ overrun) (fits : overrun * (n * s.given) < 2 ^ 64) :
    ((s.set i (forgiveTime overrun (s.rq i))).rq i).rtThrottled = false ∨
      Waiting i r (left - r) (s.set i (forgiveTime overrun (s.rq i))) := by
  have pending := conserved.throttled i waiting.throttled
  cases still : (forgiveTime overrun (s.rq i)).rtThrottled with
  | false => exact .inl (by rw [set_self, still])
  | true =>
    obtain ⟨sameRuntime, _, _, range, throttled⟩ := forgiveTime_spec overrun (conserved.time i).1
    have beyond := (throttled.mp still).2
    have time := forgiveTime_rtTime overrun (s.rq i)
    have below := (conserved.time i).2
    have finite : (2 : Int) ^ 63 < runtimeInf := by decide
    have lends : (s.rq i).Lends := by rw [RtRq.Lends]; omega
    have small := conserved.runtime_le lends
    have runtime := waiting.runtime
    have whole : (s.rq i).rtRuntime ≤ overrun * (s.rq i).rtRuntime :=
      le_mul_of_one_le_left (conserved.runtime i).1 some'
    have total : overrun * (s.rq i).rtRuntime ≤ overrun * (n * s.given) :=
      Int.mul_le_mul_of_nonneg_left small (by omega)
    rw [Int.emod_eq_of_lt (by omega) (by omega)] at time
    have left' := waiting.rtTime
    refine .inr ⟨?_, waiting.period, ?_, ?_⟩
    · rwa [set_self]
    · rw [set_self, sameRuntime]
      omega
    · rw [set_self]
      omega

end Waiting

/-- Events that take nothing from a CPU, where the run time of several periods fits. -/
def BandwidthEvent.Quiet (i : Fin n) (total : Int) : BandwidthEvent n → Prop
  | charge j _ | enable j => i ≠ j
  | forgive j overrun => i = j → 1 ≤ overrun ∧ overrun * total < 2 ^ 64
  | disable _ | proc _ _ | handler => False
  | balance _ _ | throttle _ | resched _ | requeue _ | boot | attach _ _ | setOnline _ _ | tasks _ _ => True

/-- A visit of the period timer to the CPU while it has time to be forgiven. -/
def BandwidthEvent.Visits (i : Fin n) : BandwidthEvent n → Bool
  | forgive j _ => i = j
  | _ => false

theorem spared_step {e : BandwidthEvent n} (conserved : Conserved s) (quiet : e.Quiet i (n * s.given))
    (elsewhere : e.Visits i = false) (step : BandwidthStep s e t) : Spared i s t := by
  obtain ⟨allowed, performed⟩ := step
  cases e with
  | charge j deltaExec =>
    cases performed
    exact .of_set fun own => absurd own quiet
  | balance self own =>
    cases performed
    exact .doBalanceRuntime conserved allowed
  | throttle j =>
    cases performed
    rw [throttle]
    split_ifs
    · exact .refl i s
    · exact .of_set fun _ => ⟨rfl, rfl, fun _ => rfl⟩
    · exact .refl i s
  | resched j =>
    cases performed
    exact .of_set fun _ => ⟨rfl, rfl, id⟩
  | forgive j overrun =>
    cases performed
    exact .of_set fun own => by simp [BandwidthEvent.Visits, own] at elsewhere
  | requeue j =>
    cases performed
    exact .of_set fun _ => ⟨enqueue_rtRuntime, enqueue_rtTime, fun throttled => by rwa [enqueue_rtThrottled]⟩
  | disable j => exact quiet.elim
  | enable j =>
    cases performed
    rw [enableRuntime]
    split_ifs
    · exact .refl i s
    · exact .of_set fun own => absurd own quiet
  | proc period runtime => exact quiet.elim
  | handler => exact quiet.elim
  | boot =>
    cases performed
    exact ⟨rfl, rfl, rfl, id, fun _ _ _ => id⟩
  | attach j rd =>
    cases performed
    exact .of_set fun _ => ⟨rfl, rfl, id⟩
  | setOnline j online =>
    cases performed
    exact .of_set fun _ => ⟨rfl, rfl, id⟩
  | tasks j rtNrRunning =>
    cases performed
    exact .of_set fun _ => ⟨rfl, rfl, id⟩

theorem Waiting.step {r left : Int} {e : BandwidthEvent n} (waiting : Waiting i r left s) (conserved : Conserved s)
    (positive : 0 < r) (quiet : e.Quiet i (n * s.given)) (step : BandwidthStep s e t) :
    t.given = s.given ∧
      ((t.rq i).rtThrottled = false ∨ Waiting i r (if e.Visits i then left - r else left) t) := by
  cases visits : e.Visits i with
  | false =>
    have spared := spared_step conserved quiet visits step
    exact ⟨spared.given, .inr (waiting.spared spared)⟩
  | true =>
    cases e with
    | forgive j overrun =>
      have here : i = j := of_decide_eq_true visits
      subst here
      obtain ⟨some', fits⟩ := quiet rfl
      cases step.2
      exact ⟨rfl, waiting.forgive conserved positive some' fits⟩
    | _ => cases visits

theorem Waiting.released {r left : Int} {u : Bandwidth n} {events : List (BandwidthEvent n)}
    (waiting : Waiting i r left s) (conserved : Conserved s) (positive : 0 < r) (run : Run BandwidthStep s events u)
    (quiet : ∀ e ∈ events, e.Quiet i (n * s.given)) (enough : left < r * events.countP (·.Visits i)) :
    ∃ front m, front <+: events ∧ Run BandwidthStep s front m ∧ (m.rq i).rtThrottled = false := by
  induction run generalizing left with
  | nil state =>
    have pending := conserved.throttled i waiting.throttled
    have time := waiting.rtTime
    simp only [List.countP_nil, Nat.cast_zero, Int.mul_zero] at enough
    omega
  | @cons s next final e rest edge run ih =>
    obtain ⟨given, free | waiting⟩ := waiting.step conserved positive (quiet e List.mem_cons_self) edge
    · exact ⟨[e], next, ⟨rest, rfl⟩, .cons edge (.nil next), free⟩
    · have fewer : (if e.Visits i then left - r else left) < r * rest.countP (·.Visits i) := by
        rw [List.countP_cons] at enough
        split_ifs at enough ⊢
        · push_cast at enough
          linarith
        · exact enough
      obtain ⟨front, m, before, reached, free⟩ := ih waiting (conserved_step conserved edge)
        (fun later member => by
          rw [given]
          exact quiet later (List.mem_cons_of_mem _ member)) fewer
      exact ⟨e :: front, m, List.cons_prefix_cons.mpr ⟨rfl, before⟩, .cons edge reached, free⟩

end Cs544.Sched
