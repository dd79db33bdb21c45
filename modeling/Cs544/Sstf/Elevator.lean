import Cs544.Sstf.Scheduler

/-! The elevator discipline of the SSTF scheduler.

Insertion keeps the queue in the order of sectors, which is what the dispatch loop
relies on: the first request it meets ahead of `prevsec` is the nearest one ahead,
and the end of the queue it turns to otherwise is the nearest of all.
-/

set_option autoImplicit false

namespace Cs544.Sstf

open Cs544.Library

def Sorted (queue : List Request) : Prop := queue.Pairwise fun x y => x.pos ≤ y.pos

def Direction.reverse : Direction → Direction
  | .next => .prev
  | .prev => .next

/-- Sector `y` lies strictly ahead of sector `x`. -/
def Direction.Ahead : Direction → Nat → Nat → Prop
  | .next, x, y => x < y
  | .prev, x, y => y < x

def seek (x y : Nat) : Nat := (x - y) + (y - x)

variable {q t : RequestQueue} {rq : Request} {before after : List Request} {direction : Direction}
  {events : List Event}

/-! ## The queue stays sorted -/

theorem Sorted.erase {queue : List Request} (sorted : Sorted queue) (next : Request) :
    Sorted (queue.erase next) := sorted.sublist List.erase_sublist

theorem Sorted.remove (sorted : Sorted (before ++ rq :: after)) : Sorted (before ++ after) :=
  sorted.sublist ((List.sublist_cons_self rq after).append_left before)

/-- In a sorted queue the last request in front of a gap bounds all in front of it. -/
theorem Sorted.front_lt {pos : Nat} (sorted : Sorted before) (last : ∀ x ∈ before.getLast?, x.pos < pos) :
    ∀ x ∈ before, x.pos < pos := by
  intro x member
  have some' : before ≠ [] := List.ne_nil_of_mem member
  have bound := last (before.getLast some') (by simp [List.getLast?_eq_some_getLast some'])
  rw [← List.dropLast_append_getLast some'] at member sorted
  rcases List.mem_append.mp member with front | here
  · exact Nat.lt_of_le_of_lt ((List.pairwise_append.mp sorted).2.2 x front _ (by simp)) bound
  · rw [List.mem_singleton.mp here]
    exact bound

theorem sorted_add (sorted : Sorted q.nd.queue) (rq : Request) :
    ∃ before after, q.nd.queue = before ++ after ∧
      (sstfAddRequest q rq).nd = { q.nd with queue := before ++ rq :: after } ∧
      (∀ x ∈ before, x.pos < rq.pos) ∧ ∀ x ∈ after, rq.pos ≤ x.pos := by
  obtain ⟨before, after, split, result, last, behind⟩ := sstfAddRequest_cases q rq
  refine ⟨before, after, split, result, ?_, behind⟩
  rw [split] at sorted
  exact Sorted.front_lt (List.pairwise_append.mp sorted).1 last

theorem sorted_step {event : Event} (sorted : Sorted q.nd.queue) (step : SstfStep q event t) :
    Sorted t.nd.queue := by
  cases event with
  | add rq =>
    obtain ⟨_, rfl⟩ := step
    obtain ⟨before, after, split, result, front, behind⟩ := sorted_add sorted rq
    rw [split] at sorted
    rw [result]
    obtain ⟨first, second, across⟩ := List.pairwise_append.mp sorted
    refine List.pairwise_append.mpr ⟨first, List.pairwise_cons.mpr ⟨behind, second⟩, ?_⟩
    intro x inFront y inBack
    rcases List.mem_cons.mp inBack with rfl | inBack
    · exact Nat.le_of_lt (front x inFront)
    · exact across x inFront y inBack
  | merged rq next =>
    cases step
    exact sorted.erase next
  | dispatch d =>
    rcases dispatch_step step with ⟨_, rfl, _⟩ | ⟨direction, before, rq, after, split, _, rfl, _⟩
    · exact sorted
    · rw [split] at sorted
      exact sorted.remove

theorem sorted_run (run : Run SstfStep q events t) (sorted : Sorted q.nd.queue) : Sorted t.nd.queue :=
  run.invariant (fun q => Sorted q.nd.queue) sorted_step sorted

/-! ## The dispatch rule -/

/-- The rule of one dispatch, in either direction. With a request ahead the nearest
one ahead is taken and the direction kept. Else the direction is reversed; the
request taken has none beyond it and is the nearest of the whole queue. -/
def Elevator (nd : SstfData) (rq : Request) (direction : Direction) : Prop :=
  ((∃ x ∈ nd.queue, nd.direction.Ahead nd.prevsec x.pos) →
    direction = nd.direction ∧ nd.direction.Ahead nd.prevsec rq.pos ∧
      ∀ x ∈ nd.queue, nd.direction.Ahead nd.prevsec x.pos → ¬ nd.direction.Ahead x.pos rq.pos) ∧
  ((¬ ∃ x ∈ nd.queue, nd.direction.Ahead nd.prevsec x.pos) →
    direction = nd.direction.reverse ∧ (∀ x ∈ nd.queue, ¬ nd.direction.Ahead rq.pos x.pos) ∧
      ∀ x ∈ nd.queue, seek nd.prevsec rq.pos ≤ seek nd.prevsec x.pos)

theorem Choice.elevator {nd : SstfData} (sorted : Sorted nd.queue) (split : nd.queue = before ++ rq :: after)
    (choice : Choice nd direction before rq after) : Elevator nd rq direction := by
  rw [split] at sorted
  obtain ⟨_, behind, front⟩ := List.pairwise_append.mp sorted
  have last : ∀ x ∈ after, rq.pos ≤ x.pos := (List.pairwise_cons.mp behind).1
  have first : ∀ x ∈ before, x.pos ≤ rq.pos := fun x member => front x member rq (by simp)
  have members (x : Request) : x ∈ nd.queue ↔ x ∈ before ∨ x = rq ∨ x ∈ after := by simp [split]
  cases choice with
  | up going passed ahead =>
    simp only [Elevator, going, Direction.Ahead]
    refine ⟨fun _ => ⟨trivial, ahead, fun x member beyond => ?_⟩, fun none' => ?_⟩
    · rcases (members x).mp member with inFront | rfl | inBack
      · have := passed x inFront
        omega
      · omega
      · have := last x inBack
        omega
    · exact absurd ⟨rq, (members rq).mpr (by simp), ahead⟩ none'
  | top going passed =>
    simp only [Elevator, going, Direction.Ahead, Direction.reverse]
    have bound (x : Request) (member : x ∈ nd.queue) : x.pos ≤ nd.prevsec := by
      exact passed x (by simpa [split] using member)
    have order (x : Request) (member : x ∈ nd.queue) : x.pos ≤ rq.pos := by
      rcases (members x).mp member with inFront | rfl | inBack
      · exact first x inFront
      · exact Nat.le_refl _
      · cases inBack
    refine ⟨fun ⟨x, member, beyond⟩ => ?_, fun _ => ⟨trivial, fun x member => ?_, fun x member => ?_⟩⟩
    · have := bound x member
      omega
    · have := order x member
      omega
    · have := order x member
      have := bound x member
      have := bound rq ((members rq).mpr (by simp))
      simp only [seek]
      omega
  | down going passed ahead =>
    simp only [Elevator, going, Direction.Ahead]
    refine ⟨fun _ => ⟨trivial, ahead, fun x member beyond => ?_⟩, fun none' => ?_⟩
    · rcases (members x).mp member with inFront | rfl | inBack
      · have := first x inFront
        omega
      · omega
      · have := passed x inBack
        omega
    · exact absurd ⟨rq, (members rq).mpr (by simp), ahead⟩ none'
  | bottom going passed =>
    simp only [Elevator, going, Direction.Ahead, Direction.reverse]
    have bound (x : Request) (member : x ∈ nd.queue) : nd.prevsec ≤ x.pos := by
      exact passed x (by simpa [split] using member)
    have order (x : Request) (member : x ∈ nd.queue) : rq.pos ≤ x.pos := by
      rcases (members x).mp member with inFront | rfl | inBack
      · cases inFront
      · exact Nat.le_refl _
      · exact last x inBack
    refine ⟨fun ⟨x, member, beyond⟩ => ?_, fun _ => ⟨trivial, fun x member => ?_, fun x member => ?_⟩⟩
    · have := bound x member
      omega
    · have := order x member
      omega
    · have := order x member
      have := bound x member
      have := bound rq ((members rq).mpr (by simp))
      simp only [seek]
      omega

/-! ## Sweeps -/

/-- A dispatch that does not reverse goes strictly ahead. -/
theorem Choice.ahead {nd : SstfData} (choice : Choice nd direction before rq after)
    (kept : nd.direction = direction) : nd.direction.Ahead nd.prevsec rq.pos := by
  cases choice with
  | up going _ ahead =>
    rw [going]
    exact ahead
  | down going _ ahead =>
    rw [going]
    exact ahead
  | top going _ =>
    rw [going] at kept
    cases kept
  | bottom going _ =>
    rw [going] at kept
    cases kept

theorem Direction.Ahead.trans {x y z : Nat} (first : direction.Ahead x y) (second : direction.Ahead y z) :
    direction.Ahead x z := by
  cases direction with
  | next => exact Nat.lt_trans first second
  | prev => exact Nat.lt_trans second first

/-- While nothing reverses, all dispatches go the same way and each lies strictly
ahead of the ones before it. -/
theorem sweep (run : Run SstfStep q events t) (kept : ∀ d ∈ dispatches events, d.reversed = false) :
    (q.nd.prevsec :: (dispatches events).map (·.request.pos)).Pairwise q.nd.direction.Ahead := by
  induction run with
  | nil => simp
  | @cons q next t event events step rest ih =>
    cases event with
    | add rq =>
      obtain ⟨_, rfl⟩ := step
      exact ih kept
    | merged rq other =>
      cases step
      exact ih kept
    | dispatch d =>
      rcases dispatch_step step with
        ⟨_, rfl, rfl⟩ | ⟨direction, before, rq, after, split, choice, rfl, rfl⟩
      · exact ih kept
      · have same : q.nd.direction = direction := by
          simpa using kept _ (List.mem_cons_self (l := dispatches events))
        have tail := ih fun d member => kept d (by simp [member])
        have ahead := choice.ahead same
        subst same
        simp only [dispatches_some, List.map_cons]
        refine List.pairwise_cons.mpr ⟨fun pos member => ?_, tail⟩
        rcases List.mem_cons.mp member with rfl | member
        · exact ahead
        · exact ahead.trans ((List.pairwise_cons.mp tail).1 pos member)

/-- From any dispatch to the next reversal the sectors are strictly monotone in the
direction that dispatch left behind. -/
theorem sweep_from (run : Run SstfStep q events t) {d : Dispatched} {ds : List Dispatched}
    (split : dispatches events = d :: ds) (kept : ∀ e ∈ ds, e.reversed = false) :
    ((d :: ds).map (·.request.pos)).Pairwise d.direction.Ahead := by
  induction run with
  | nil => cases split
  | @cons q next t event events step rest ih =>
    cases event with
    | add rq => exact ih split
    | merged rq other => exact ih split
    | dispatch sent =>
      rcases dispatch_step step with
        ⟨_, rfl, rfl⟩ | ⟨direction, before, rq, after, _, _, rfl, rfl⟩
      · exact ih split
      · simp only [dispatches_some, List.cons.injEq] at split
        obtain ⟨rfl, rfl⟩ := split
        exact sweep rest kept

/-- The elevator discipline, after any run from `sstf_init_queue`. The queue is
sorted, `sstf_dispatch` on a queue that is not empty hands over one of its requests
by the elevator rule, and from any dispatch of the run up to the next reversal the
dispatched sectors are strictly monotone in the direction taken. -/
theorem sstf_elevator_discipline (nd : SstfData) (queueHead : List Request) (q : RequestQueue)
    (events : List Event) (init : sstfInitQueue true = some nd)
    (run : Run SstfStep ⟨nd, queueHead⟩ events q) :
    Sorted q.nd.queue ∧
    (q.nd.queue ≠ [] → ∃ rq t, sstfDispatch q = some (1, t) ∧ t.queueHead = q.queueHead ++ [rq] ∧
      rq ∈ q.nd.queue ∧ q.nd.queue.Perm (rq :: t.nd.queue) ∧ t.nd.prevsec = rq.pos ∧
      Elevator q.nd rq t.nd.direction) ∧
    ∀ earlier middle later, events = earlier ++ middle ++ later →
      ∀ d ds, dispatches middle = d :: ds → (∀ e ∈ ds, e.reversed = false) →
        ((d :: ds).map (·.request.pos)).Pairwise d.direction.Ahead := by
  have start : Sorted nd.queue := by
    cases init
    exact .nil
  have sorted := sorted_run run start
  refine ⟨sorted, fun some' => ?_, fun earlier middle later split d ds first kept => ?_⟩
  · obtain ⟨direction, before, rq, after, split, choice, result⟩ := sstfDispatch_cases q some'
    refine ⟨rq, _, result, rfl, by simp [split], ?_, rfl, choice.elevator sorted split⟩
    rw [split]
    exact List.perm_middle
  · subst split
    obtain ⟨_, front, _⟩ := run.split
    obtain ⟨_, _, here⟩ := front.split
    exact sweep_from here first kept

theorem sstf_elevator_discipline_two_requests :
    ∃ q, Run SstfStep ⟨⟨.next, 0, []⟩, []⟩ [.add ⟨1, 7⟩, .add ⟨2, 3⟩] q ∧
      ∃ rq t, sstfDispatch q = some (1, t) ∧ Elevator q.nd rq t.nd.direction := by
  have run : Run SstfStep ⟨⟨.next, 0, []⟩, []⟩ [.add ⟨1, 7⟩, .add ⟨2, 3⟩]
      ⟨⟨.next, 0, [⟨2, 3⟩, ⟨1, 7⟩]⟩, []⟩ :=
    .cons ⟨by decide, rfl⟩ (.cons ⟨by decide, rfl⟩ (.nil _))
  obtain ⟨rq, t, result, _, _, _, _, rule⟩ :=
    (sstf_elevator_discipline _ [] _ _ rfl run).2.1 (by decide)
  exact ⟨_, run, rq, t, result, rule⟩

end Cs544.Sstf
