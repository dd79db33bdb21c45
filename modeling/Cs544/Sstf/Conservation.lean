import Cs544.Sstf.Scheduler

/-! The SSTF scheduler neither loses nor duplicates a request.

Every call is accounted for by counting one request on both sides: what was added is
queued, was handed over, or was merged away. A dispatch always takes one request off a
queue that has one, so as many dispatches as there are requests leave it empty.
-/

set_option autoImplicit false

namespace Cs544.Sstf

open Cs544.Library

/-- `sstf_exit_queue`; there is no result when its `BUG_ON` is hit. -/
def sstfExitQueue (nd : SstfData) : Option Unit := if nd.queue.isEmpty then some () else none

def added (events : List Event) : List Request :=
  events.filterMap fun
    | .add rq => some rq
    | _ => none

def handedOver (events : List Event) : List Request := (dispatches events).map (·.request)

def mergedAway (events : List Event) : List Request :=
  events.filterMap fun
    | .merged _ next => some next
    | _ => none

/-- A step that merges away queued requests only. -/
def QueuedStep (q : RequestQueue) (event : Event) (t : RequestQueue) : Prop :=
  SstfStep q event t ∧ ∀ rq next, event = .merged rq next → next ∈ q.nd.queue

def dispatchTimes : Nat → RequestQueue → Option RequestQueue
  | 0, q => some q
  | n + 1, q =>
      match sstfDispatch q with
      | none => none
      | some (_, t) => dispatchTimes n t

variable {q t : RequestQueue} {events : List Event}

/-- What comes in and what is there goes out or is still there. -/
theorem requests_step {event : Event} (step : QueuedStep q event t) :
    (added [event] ++ q.nd.queue).Perm (t.nd.queue ++ handedOver [event] ++ mergedAway [event]) := by
  obtain ⟨step, queued⟩ := step
  cases event with
  | add rq =>
    obtain ⟨_, rfl⟩ := step
    obtain ⟨before, after, split, result, _⟩ := sstfAddRequest_cases q rq
    rw [split, result]
    simpa [added, handedOver, mergedAway] using List.perm_middle.symm
  | merged rq next =>
    cases step
    have member := queued rq next rfl
    have taken := List.perm_cons_erase member
    have last : ([next] ++ q.nd.queue.erase next).Perm (q.nd.queue.erase next ++ [next]) := List.perm_append_comm
    apply taken.trans
    simpa [added, handedOver, mergedAway, sstfMergedRequests] using last
  | dispatch d =>
    rcases dispatch_step step with ⟨_, rfl, rfl⟩ | ⟨direction, before, rq, after, split, _, rfl, rfl⟩
    · simp [added, handedOver, mergedAway]
    · rw [split]
      have front : (before ++ rq :: after).Perm ([rq] ++ (before ++ after)) := List.perm_middle
      have taken : (before ++ rq :: after).Perm ((before ++ after) ++ [rq]) := front.trans List.perm_append_comm
      simpa [added, handedOver, mergedAway] using taken

/-- Along a run every request that is added, or queued at first, is queued, handed over
or merged away at last. -/
theorem requests_run (run : Run QueuedStep q events t) :
    (added events ++ q.nd.queue).Perm (t.nd.queue ++ handedOver events ++ mergedAway events) := by
  induction run with
  | nil => simp [added, handedOver, mergedAway]
  | @cons q next t event events step _ ih =>
    have here := requests_step step
    have addedCons : added (event :: events) = added [event] ++ added events :=
      List.filterMap_append (l := [event])
    have handedCons : handedOver (event :: events) = handedOver [event] ++ handedOver events := by
      rw [handedOver, show dispatches (event :: events) = dispatches [event] ++ dispatches events from
        List.filterMap_append (l := [event]), List.map_append]
      rfl
    have mergedCons : mergedAway (event :: events) = mergedAway [event] ++ mergedAway events :=
      List.filterMap_append (l := [event])
    rw [addedCons, handedCons, mergedCons]
    apply List.perm_iff_count.mpr
    intro rq
    have first := here.count_eq rq
    have rest := ih.count_eq rq
    simp only [List.count_append] at first rest ⊢
    omega

theorem dispatchTimes_length (n : Nat) (q : RequestQueue) (size : q.nd.queue.length = n) :
    ∃ t, dispatchTimes n q = some t ∧ t.nd.queue = [] := by
  induction n generalizing q with
  | zero => exact ⟨q, rfl, List.length_eq_zero_iff.mp size⟩
  | succ n ih =>
    have some' : q.nd.queue ≠ [] := List.ne_nil_of_length_eq_add_one size
    obtain ⟨direction, before, rq, after, split, _, result⟩ := sstfDispatch_cases q some'
    rw [split, List.length_append, List.length_cons] at size
    rw [dispatchTimes, result]
    apply ih
    rw [List.length_append]
    omega

/-- No request is lost or duplicated, after any run from `sstf_init_queue`: what was
added is queued, was handed over or was merged away. `sstf_dispatch` takes exactly one
request off a queue that is not empty and changes nothing otherwise, so a queue of `n`
requests is empty after `n` dispatches and `sstf_exit_queue` passes its `BUG_ON`. -/
theorem sstf_conserves_requests (nd : SstfData) (queueHead : List Request) (q : RequestQueue)
    (events : List Event) (init : sstfInitQueue true = some nd)
    (run : Run QueuedStep ⟨nd, queueHead⟩ events q) :
    (added events).Perm (q.nd.queue ++ handedOver events ++ mergedAway events) ∧
    (q.nd.queue ≠ [] → ∃ rq t, sstfDispatch q = some (1, t) ∧ t.queueHead = q.queueHead ++ [rq] ∧
      q.nd.queue.Perm (rq :: t.nd.queue)) ∧
    (q.nd.queue = [] → sstfDispatch q = some (0, q)) ∧
    ∃ t, dispatchTimes q.nd.queue.length q = some t ∧ t.nd.queue = [] ∧ sstfExitQueue t.nd = some () := by
  have start : nd.queue = [] := by
    cases init
    rfl
  refine ⟨?_, fun some' => ?_, fun empty => ?_, ?_⟩
  · simpa [start] using requests_run run
  · obtain ⟨direction, before, rq, after, split, _, result⟩ := sstfDispatch_cases q some'
    refine ⟨rq, _, result, rfl, ?_⟩
    rw [split]
    exact List.perm_middle
  · simp [sstfDispatch, empty]
  · obtain ⟨t, result, empty⟩ := dispatchTimes_length _ q rfl
    exact ⟨t, result, empty, by simp [sstfExitQueue, empty]⟩

/-- Two requests are added, one is merged into the other, and the other is dispatched. -/
theorem sstf_conserves_requests_merge :
    ∃ events q, Run QueuedStep ⟨⟨.next, 0, []⟩, []⟩ events q ∧ handedOver events = [⟨1, 7⟩] ∧
      mergedAway events = [⟨2, 9⟩] ∧
      (added events).Perm (q.nd.queue ++ handedOver events ++ mergedAway events) := by
  have run : Run QueuedStep ⟨⟨.next, 0, []⟩, []⟩
      [.add ⟨1, 7⟩, .add ⟨2, 9⟩, .merged ⟨1, 7⟩ ⟨2, 9⟩, .dispatch (some ⟨⟨1, 7⟩, .next, false⟩)]
      ⟨⟨.next, 7, []⟩, [⟨1, 7⟩]⟩ :=
    .cons ⟨⟨by decide, rfl⟩, nofun⟩ (.cons ⟨⟨by decide, rfl⟩, nofun⟩
      (.cons ⟨rfl, fun _ _ same => by cases same; decide⟩
        (.cons ⟨⟨⟨1, rfl⟩, rfl⟩, nofun⟩ (.nil _))))
  exact ⟨_, _, run, rfl, rfl, (sstf_conserves_requests ⟨.next, 0, []⟩ [] _ _ rfl run).1⟩

end Cs544.Sstf
