import Cs544.Sstf.Starvation

/-! Draining the queue of the SSTF scheduler.

A sweep takes one request from every sector it passes: both loops of `sstf_dispatch`
compare strictly with the last dispatched sector, so what else is queued for a sector
stays behind. Every reversal starts a sweep over all sectors that are left. How often
the direction is reversed is therefore decided by the fullest sector.
-/

set_option autoImplicit false

namespace Cs544.Sstf

open Cs544.Library

instance (direction : Direction) (x y : Nat) : Decidable (direction.Ahead x y) :=
  match direction with
  | .next => inferInstanceAs (Decidable (x < y))
  | .prev => inferInstanceAs (Decidable (y < x))

/-- The requests queued for one sector. -/
def load (pos : Nat) (queue : List Request) : Nat := queue.countP fun x => x.pos = pos

/-- The current sweep and so many more take all requests of every sector. -/
def Fits (sweeps : Nat) (nd : SstfData) : Prop :=
  ∀ pos, load pos nd.queue ≤ sweeps + if nd.direction.Ahead nd.prevsec pos then 1 else 0

def DispatchStep (q : RequestQueue) (event : Event) (t : RequestQueue) : Prop :=
  (∃ d, event = .dispatch d) ∧ SstfStep q event t

/-- Dispatching until the queue is empty, with no new arrivals. -/
def Drain (q : RequestQueue) (events : List Event) (t : RequestQueue) : Prop :=
  Run DispatchStep q events t ∧ t.nd.queue = []

variable {q t : RequestQueue} {nd : SstfData} {rq : Request} {before after : List Request}
  {direction : Direction} {events : List Event} {pos sweeps : Nat}

@[simp] theorem load_nil : load pos [] = 0 := rfl

theorem load_split (pos : Nat) (before : List Request) (rq : Request) (after : List Request) :
    load pos (before ++ rq :: after) = load pos (before ++ after) + if rq.pos = pos then 1 else 0 := by
  simp only [load, List.countP_append, List.countP_cons, decide_eq_true_eq]
  omega

theorem exists_of_load_pos {queue : List Request} (positive : 0 < load pos queue) :
    ∃ x ∈ queue, x.pos = pos := by
  simpa [load, List.countP_pos_iff] using positive

theorem fits_nil (sweeps : Nat) (empty : nd.queue = []) : Fits sweeps nd := by
  intro pos
  simp [empty]

/-! ## One dispatch -/

/-- A sector between the last dispatched one and the one taken has no requests. -/
theorem Elevator.gap (rule : Elevator nd rq nd.direction) (pos : Nat) (positive : 0 < load pos nd.queue)
    (ahead : nd.direction.Ahead nd.prevsec pos) : ¬ nd.direction.Ahead pos rq.pos := by
  obtain ⟨x, member, rfl⟩ := exists_of_load_pos positive
  obtain ⟨-, -, nearest⟩ := rule.1 ⟨x, member, ahead⟩
  exact nearest x member ahead

/-- A reversal finds no requests ahead and takes the outermost one. -/
theorem Elevator.turn (rule : Elevator nd rq direction) (turned : nd.direction ≠ direction) :
    direction = nd.direction.reverse ∧
    ∀ pos, 0 < load pos nd.queue →
      ¬ nd.direction.Ahead nd.prevsec pos ∧ ¬ nd.direction.Ahead rq.pos pos := by
  have nobody : ¬ ∃ x ∈ nd.queue, nd.direction.Ahead nd.prevsec x.pos :=
    fun someone => turned (rule.1 someone).1.symm
  obtain ⟨reversed, outermost, -⟩ := rule.2 nobody
  refine ⟨reversed, fun pos positive => ?_⟩
  obtain ⟨x, member, rfl⟩ := exists_of_load_pos positive
  exact ⟨fun ahead => nobody ⟨x, member, ahead⟩, outermost x member⟩

theorem fits_kept (sorted : Sorted nd.queue) (split : nd.queue = before ++ rq :: after)
    (choice : Choice nd direction before rq after) (kept : nd.direction = direction) :
    Fits sweeps nd ↔ Fits sweeps ⟨direction, rq.pos, before ++ after⟩ := by
  subst kept
  have ahead := choice.ahead rfl
  have rule := choice.elevator sorted split
  apply forall_congr'
  intro pos
  have gap := rule.gap pos
  have counted := load_split pos before rq after
  rw [← split] at counted
  -- The sector of the request has its turn now; the sectors behind it had theirs.
  cases going : nd.direction with
  | next =>
    simp only [going, Direction.Ahead] at ahead gap ⊢
    grind
  | prev =>
    simp only [going, Direction.Ahead] at ahead gap ⊢
    grind

theorem fits_reversed (sorted : Sorted nd.queue) (split : nd.queue = before ++ rq :: after)
    (choice : Choice nd direction before rq after) (turned : nd.direction ≠ direction) :
    Fits (sweeps + 1) nd ↔ Fits sweeps ⟨direction, rq.pos, before ++ after⟩ := by
  obtain ⟨rfl, outermost⟩ := (choice.elevator sorted split).turn turned
  apply forall_congr'
  intro pos
  have outermost := outermost pos
  have counted := load_split pos before rq after
  rw [← split] at counted
  -- Nothing is ahead before the reversal, and all other sectors are ahead after it.
  cases going : nd.direction with
  | next =>
    simp only [going, Direction.Ahead, Direction.reverse] at outermost ⊢
    grind
  | prev =>
    simp only [going, Direction.Ahead, Direction.reverse] at outermost ⊢
    grind

theorem not_fits_zero (sorted : Sorted nd.queue) (split : nd.queue = before ++ rq :: after)
    (choice : Choice nd direction before rq after) (turned : nd.direction ≠ direction) : ¬ Fits 0 nd := by
  intro fits
  have counted := load_split rq.pos before rq after
  rw [← split, if_pos rfl] at counted
  obtain ⟨-, outermost⟩ := (choice.elevator sorted split).turn turned
  have taken := fits rq.pos
  rw [if_neg (outermost rq.pos (by omega)).1] at taken
  omega

/-! ## The whole drain -/

theorem reversals_le_iff_fits (run : Run DispatchStep q events t) (empty : t.nd.queue = [])
    (sorted : Sorted q.nd.queue) : reversals events ≤ sweeps ↔ Fits sweeps q.nd := by
  induction run generalizing sweeps with
  | nil => simp [fits_nil sweeps empty]
  | @cons q next t event events step rest ih =>
    obtain ⟨⟨d, rfl⟩, step⟩ := step
    have ih (sweeps : Nat) : reversals events ≤ sweeps ↔ Fits sweeps next.nd :=
      ih empty (sorted_step sorted step)
    rw [reversals_cons]
    rcases dispatch_step step with ⟨_, rfl, rfl⟩ | ⟨direction, before, rq, after, split, choice, rfl, rfl⟩
    · simpa using ih sweeps
    · by_cases kept : q.nd.direction = direction
      · rw [fits_kept sorted split choice kept, ← ih sweeps, reversals_some]
        simp [kept]
      · rw [reversals_some, if_pos (by simpa using kept)]
        cases sweeps with
        | zero =>
          have unfit := not_fits_zero sorted split choice kept
          simp only [unfit, iff_false]
          omega
        | succ sweeps =>
          rw [fits_reversed sorted split choice kept, ← ih sweeps, Nat.add_comm, Nat.add_le_add_iff_right]

/-- Every queue is drained by as many dispatches as it has requests. -/
theorem exists_drain (q : RequestQueue) : ∃ events t, Drain q events t := by
  induction size : q.nd.queue.length generalizing q with
  | zero => exact ⟨[], q, .nil q, List.length_eq_zero_iff.mp size⟩
  | succ n ih =>
    obtain ⟨direction, before, rq, after, split, _, result⟩ :=
      sstfDispatch_cases q fun empty => by simp [empty] at size
    obtain ⟨events, t, run, empty⟩ := ih ⟨⟨direction, rq.pos, before ++ after⟩, q.queueHead ++ [rq]⟩ (by
      rw [split, List.length_append, List.length_cons] at size
      rw [List.length_append]
      omega)
    exact ⟨_, t, .cons ⟨⟨_, rfl⟩, ⟨1, result⟩, rfl⟩ run, empty⟩

/-- Draining reverses the direction at most once exactly when every sector ahead of the
last dispatched one is requested at most twice and every other sector at most once. -/
theorem sstf_drain_reverses_once_iff (q : RequestQueue) (sorted : Sorted q.nd.queue) :
    (∃ events t, Drain q events t) ∧
    ∀ events t, Drain q events t →
      (reversals events ≤ 1 ↔
        ∀ pos, load pos q.nd.queue ≤ if q.nd.direction.Ahead q.nd.prevsec pos then 2 else 1) := by
  refine ⟨exists_drain q, fun events t drain => ?_⟩
  rw [reversals_le_iff_fits drain.1 drain.2 sorted]
  apply forall_congr'
  intro pos
  split_ifs <;> rfl

/-- Two requests for each of two sectors ahead: up once, down once. -/
theorem sstf_drain_reverses_once_two_each :
    ∃ events t, Drain ⟨⟨.next, 0, [⟨1, 3⟩, ⟨2, 3⟩, ⟨3, 7⟩, ⟨4, 7⟩]⟩, []⟩ events t ∧ reversals events ≤ 1 := by
  obtain ⟨⟨events, t, drain⟩, once⟩ :=
    sstf_drain_reverses_once_iff ⟨⟨.next, 0, [⟨1, 3⟩, ⟨2, 3⟩, ⟨3, 7⟩, ⟨4, 7⟩]⟩, []⟩ (by unfold Sorted; decide)
  refine ⟨events, t, drain, (once events t drain).mpr fun pos => ?_⟩
  by_cases low : 3 = pos
  · subst low
    decide
  · by_cases high : 7 = pos
    · subst high
      decide
    · simp [load, low, high]

/-- Two requests for the sector the head is at: the first is taken by reversing, and the
second by reversing again. -/
theorem sstf_drain_reverses_twice :
    ¬ ∀ q : RequestQueue, Sorted q.nd.queue → ∀ events t, Drain q events t → reversals events ≤ 1 := by
  intro once
  have run : Run DispatchStep ⟨⟨.next, 5, [⟨1, 5⟩, ⟨2, 5⟩]⟩, []⟩
      [.dispatch (some ⟨⟨2, 5⟩, .prev, true⟩), .dispatch (some ⟨⟨1, 5⟩, .next, true⟩)]
      ⟨⟨.next, 5, []⟩, [⟨2, 5⟩, ⟨1, 5⟩]⟩ :=
    .cons ⟨⟨_, rfl⟩, ⟨1, rfl⟩, rfl⟩ (.cons ⟨⟨_, rfl⟩, ⟨1, rfl⟩, rfl⟩ (.nil _))
  have twice := once _ (by unfold Sorted; decide) _ _ ⟨run, rfl⟩
  exact absurd twice (by decide)

end Cs544.Sstf
