import Mathlib.Data.List.Nodup
import Cs544.Sstf.Elevator

/-! No request starves in the SSTF scheduler.

A request added to a sector goes in front of the ones already there. Sweeps
downwards take the hindmost of a sector, so each of them that passes the sector of
a waiting request takes one from behind it, and at last the request itself. What
may still arrive never gets behind it. The bound is a potential: two reversals for
each request behind, and the rest of the current double sweep.
-/

set_option autoImplicit false

namespace Cs544.Sstf

open Cs544.Library

def reversals (events : List Event) : Nat := (dispatches events).countP (·.reversed)

/-- The reversals left until a downward sweep reaches the sector next. -/
def phase (pos : Nat) (nd : SstfData) : Nat :=
  match nd.direction with
  | .next => 1
  | .prev => if pos < nd.prevsec then 0 else 2

/-- `r` is queued, and the requests of its sector behind it and the current phase
allow for at most `n` more reversals. -/
def Waits (r : Request) (q : RequestQueue) (n : Nat) : Prop :=
  ∃ before after, q.nd.queue = before ++ r :: after ∧
    2 * after.countP (fun x => x.pos = r.pos) + phase r.pos q.nd ≤ n

variable {q t : RequestQueue} {r rq : Request} {n : Nat} {before after front back : List Request}
  {direction : Direction} {events : List Event}

theorem phase_next {nd : SstfData} {pos : Nat} (going : nd.direction = .next) : phase pos nd = 1 := by
  simp only [phase, going]

theorem phase_due {nd : SstfData} {pos : Nat} (going : nd.direction = .prev) (above : pos < nd.prevsec) :
    phase pos nd = 0 := by
  simp only [phase, going, if_pos above]

theorem phase_passed {nd : SstfData} {pos : Nat} (going : nd.direction = .prev) (below : nd.prevsec ≤ pos) :
    phase pos nd = 2 := by
  simp only [phase, going, if_neg (Nat.not_lt.mpr below)]

@[simp] theorem reversals_nil : reversals [] = 0 := rfl

theorem reversals_cons (event : Event) (events : List Event) :
    reversals (event :: events) = reversals [event] + reversals events := by
  simp only [reversals, ← List.countP_append]
  rw [show dispatches (event :: events) = dispatches [event] ++ dispatches events from
    List.filterMap_append (l := [event])]

@[simp] theorem reversals_add : reversals [.add rq] = 0 := rfl

@[simp] theorem reversals_merged : reversals [.merged r rq] = 0 := rfl

@[simp] theorem reversals_none : reversals [.dispatch none] = 0 := rfl

theorem reversals_some (d : Dispatched) : reversals [.dispatch (some d)] = if d.reversed then 1 else 0 := by
  simp [reversals, List.countP_cons]

/-! ## One step -/

theorem nodup_step {event : Event} (distinct : q.nd.queue.Nodup) (step : SstfStep q event t) :
    t.nd.queue.Nodup := by
  cases event with
  | add rq =>
    obtain ⟨fresh, rfl⟩ := step
    obtain ⟨before, after, split, result, _⟩ := sstfAddRequest_cases q rq
    rw [split] at distinct fresh
    rw [result]
    have absent : rq ∉ before ++ after := fun member => fresh rq member rfl
    exact (List.perm_middle.nodup_iff).mpr (List.nodup_cons.mpr ⟨absent, distinct⟩)
  | merged rq next =>
    cases step
    exact distinct.erase next
  | dispatch d =>
    rcases dispatch_step step with ⟨_, rfl, _⟩ | ⟨direction, before, rq, after, split, _, rfl, _⟩
    · exact distinct
    · rw [split] at distinct
      exact (List.nodup_cons.mp (List.perm_middle.nodup_iff.mp distinct)).2

/-- What is added goes in front of the waiting request or has another sector. -/
theorem waits_add (sorted : Sorted q.nd.queue) (waits : Waits r q n) (rq : Request) :
    Waits r (sstfAddRequest q rq) n := by
  obtain ⟨before, after, split, bound⟩ := waits
  obtain ⟨front, back, place, result, smaller, _⟩ := sorted_add sorted rq
  have phaseEq : phase r.pos (sstfAddRequest q rq).nd = phase r.pos q.nd := by rw [result]; rfl
  rw [split] at place
  rcases List.append_eq_append_iff.mp place with ⟨gap, rfl, tail⟩ | ⟨gap, rfl, rfl⟩
  · cases gap with
    | nil =>
      refine ⟨before ++ [rq], after, ?_, by rwa [phaseEq]⟩
      rw [List.nil_append] at tail
      rw [result]
      simp [tail]
    | cons z gap =>
      obtain ⟨rfl, rfl⟩ : r = z ∧ after = gap ++ back := by simpa using tail
      have other : rq.pos ≠ r.pos := fun same => by
        have := smaller r (by simp)
        omega
      refine ⟨before, gap ++ rq :: back, by rw [result]; simp, ?_⟩
      rw [phaseEq]
      simpa [List.countP_append, List.countP_cons, other] using bound
  · exact ⟨front ++ rq :: gap, after, by rw [result]; simp, by rwa [phaseEq]⟩

theorem waits_merged (waits : Waits r q n) {next : Request} (other : next ≠ r) :
    Waits r (sstfMergedRequests q rq next) n := by
  obtain ⟨before, after, split, bound⟩ := waits
  have phaseEq : phase r.pos (sstfMergedRequests q rq next).nd = phase r.pos q.nd := rfl
  by_cases front : next ∈ before
  · refine ⟨before.erase next, after, ?_, by rwa [phaseEq]⟩
    simp only [sstfMergedRequests, split]
    rw [List.erase_append_left _ front]
  · refine ⟨before, after.erase next, ?_, ?_⟩
    · simp only [sstfMergedRequests, split]
      rw [List.erase_append_right _ front, List.erase_cons_tail (by simpa using other.symm)]
    · rw [phaseEq]
      have fewer := (List.erase_sublist (a := next) (l := after)).countP_le (p := fun x => x.pos = r.pos)
      omega

/-- Taking the waiting request itself. -/
theorem waits_taken (choice : Choice q.nd direction front r back) (bound : phase r.pos q.nd ≤ n) :
    (if q.nd.direction ≠ direction then 1 else 0) ≤ n := by
  cases choice with
  | up going _ _ => simp [going]
  | top going _ =>
    rw [phase_next going] at bound
    rw [going, if_pos (by decide)]
    omega
  | down going _ _ => simp [going]
  | bottom going passed =>
    rw [phase_passed going (passed r (by simp))] at bound
    rw [going, if_pos (by decide)]
    omega

/-- Taking a request in front of the waiting one changes nothing behind it. -/
theorem waits_front {gap : List Request} (choice : Choice q.nd direction front rq (gap ++ r :: after))
    (bound : 2 * after.countP (fun x => x.pos = r.pos) + phase r.pos q.nd ≤ n) :
    ∃ m, (if q.nd.direction ≠ direction then 1 else 0) + m ≤ n ∧
      Waits r ⟨⟨direction, rq.pos, front ++ (gap ++ r :: after)⟩, q.queueHead ++ [rq]⟩ m := by
  have shape : front ++ (gap ++ r :: after) = (front ++ gap) ++ r :: after := by simp
  have member : r ∈ gap ++ r :: after := by simp
  generalize behind : gap ++ r :: after = back at choice shape member
  cases choice with
  | up going _ _ =>
    rw [phase_next going] at bound
    exact ⟨n, by simp [going], _, _, shape, by rwa [phase_next rfl]⟩
  | top => cases member
  | down going passed ahead =>
    have below := passed r member
    rw [phase_passed going below] at bound
    refine ⟨n, by simp [going], _, _, shape, ?_⟩
    rwa [phase_passed rfl (Nat.le_trans (Nat.le_of_lt ahead) below)]
  | bottom going passed =>
    rw [phase_passed going (passed r (by simp [member]))] at bound
    refine ⟨n - 1, ?_, _, _, shape, ?_⟩
    · rw [going, if_pos (by decide)]
      omega
    · rw [phase_next rfl]
      omega

/-- Taking one behind it: either of its sector, and then one fewer is left there, or of a
greater one, which a downward sweep takes before it. -/
theorem waits_behind {gap : List Request} (order : r.pos ≤ rq.pos)
    (choice : Choice q.nd direction (before ++ r :: gap) rq back)
    (bound : 2 * (gap ++ rq :: back).countP (fun x => x.pos = r.pos) + phase r.pos q.nd ≤ n) :
    ∃ m, (if q.nd.direction ≠ direction then 1 else 0) + m ≤ n ∧
      Waits r ⟨⟨direction, rq.pos, (before ++ r :: gap) ++ back⟩, q.queueHead ++ [rq]⟩ m := by
  have shape : (before ++ r :: gap) ++ back = before ++ r :: (gap ++ back) := by simp
  have count : (gap ++ rq :: back).countP (fun x => x.pos = r.pos) =
      (gap ++ back).countP (fun x => x.pos = r.pos) + if rq.pos = r.pos then 1 else 0 := by
    simp only [List.countP_append, List.countP_cons, decide_eq_true_eq]
    omega
  have left (queue : List Request) : 2 * (gap ++ back).countP (fun x => x.pos = r.pos) +
      phase r.pos ⟨.prev, rq.pos, queue⟩ = 2 * (gap ++ rq :: back).countP (fun x => x.pos = r.pos) := by
    rw [count]
    by_cases equal : rq.pos = r.pos
    · rw [phase_passed rfl (Nat.le_of_eq equal), if_pos equal]
      omega
    · rw [phase_due rfl (Nat.lt_of_le_of_ne order fun same => equal same.symm), if_neg equal]
      omega
  generalize ahead : before ++ r :: gap = front at choice shape
  cases choice with
  | up going _ _ =>
    rw [phase_next going] at bound
    refine ⟨n, by simp [going], _, _, shape, ?_⟩
    rw [phase_next rfl]
    omega
  | top going _ =>
    rw [phase_next going] at bound
    refine ⟨n - 1, ?_, _, _, shape, ?_⟩
    · rw [going, if_pos (by decide)]
      omega
    · rw [left]
      omega
  | down going _ _ =>
    refine ⟨n, by simp [going], _, _, shape, ?_⟩
    rw [left]
    omega
  | bottom => simp at ahead

/-- A dispatch takes the waiting request, or pays for its reversal. -/
theorem waits_dispatch (sorted : Sorted q.nd.queue) (distinct : q.nd.queue.Nodup) (waits : Waits r q n)
    (split : q.nd.queue = front ++ rq :: back) (choice : Choice q.nd direction front rq back) :
    (r ∉ front ++ back ∧ (if q.nd.direction ≠ direction then 1 else 0) ≤ n) ∨
    ∃ m, (if q.nd.direction ≠ direction then 1 else 0) + m ≤ n ∧
      Waits r ⟨⟨direction, rq.pos, front ++ back⟩, q.queueHead ++ [rq]⟩ m := by
  obtain ⟨before, after, place, bound⟩ := waits
  have same : front ++ rq :: back = before ++ r :: after := split.symm.trans place
  rw [split] at sorted distinct
  obtain ⟨_, _, across⟩ := List.pairwise_append.mp sorted
  rcases Ring.split_cases same with ⟨rfl, rfl, rfl⟩ | ⟨gap, rfl, rfl⟩ | ⟨gap, rfl, rfl⟩
  · have gone := (List.nodup_cons.mp (List.perm_middle.nodup_iff.mp distinct)).1
    exact .inl ⟨gone, waits_taken choice (Nat.le_trans (Nat.le_add_left _ _) bound)⟩
  · exact .inr (waits_front choice bound)
  · exact .inr (waits_behind (across r (by simp) rq (by simp)) choice bound)

theorem waits_step {event : Event} (sorted : Sorted q.nd.queue) (distinct : q.nd.queue.Nodup)
    (waits : Waits r q n) (step : SstfStep q event t) :
    (r ∉ t.nd.queue ∧ reversals [event] ≤ n) ∨ ∃ m, reversals [event] + m ≤ n ∧ Waits r t m := by
  cases event with
  | add rq =>
    obtain ⟨_, rfl⟩ := step
    exact .inr ⟨n, by simp, waits_add sorted waits rq⟩
  | merged rq next =>
    cases step
    by_cases same : next = r
    · subst same
      exact .inl ⟨distinct.not_mem_erase, by simp⟩
    · exact .inr ⟨n, by simp, waits_merged waits same⟩
  | dispatch d =>
    rcases dispatch_step step with ⟨_, rfl, rfl⟩ | ⟨direction, front, rq, back, split, choice, rfl, rfl⟩
    · exact .inr ⟨n, by simp, waits⟩
    · simpa only [reversals_some, decide_eq_true_eq] using waits_dispatch sorted distinct waits split choice

/-! ## Whole runs -/

/-- A step of a run during which `r` waits. -/
def WaitingStep (r : Request) (q : RequestQueue) (event : Event) (t : RequestQueue) : Prop :=
  r ∈ q.nd.queue ∧ SstfStep q event t

theorem waits_run (run : Run (WaitingStep r) q events t) (sorted : Sorted q.nd.queue)
    (distinct : q.nd.queue.Nodup) (waits : Waits r q n) : reversals events ≤ n := by
  induction run generalizing n with
  | nil => simp
  | cons first rest ih =>
    obtain ⟨_, step⟩ := first
    rw [reversals_cons]
    rcases waits_step sorted distinct waits step with ⟨gone, paid⟩ | ⟨m, paid, waits'⟩
    · cases rest with
      | nil => simpa using paid
      | cons second _ => exact absurd second.1 gone
    · have := ih (sorted_step sorted step) (nodup_step distinct step) waits'
      omega

/-- No starvation. When `r` is added with `j` requests for its sector queued, the
direction is reversed at most `2 * j + 2` times up to and including the step that
removes `r`, whatever arrives in between. -/
theorem sstf_no_starvation (nd : SstfData) (queueHead : List Request) (q added t : RequestQueue)
    (earlier events : List Event) (r : Request) (init : sstfInitQueue true = some nd)
    (run : Run SstfStep ⟨nd, queueHead⟩ earlier q) (add : SstfStep q (.add r) added)
    (waiting : Run (WaitingStep r) added events t) :
    reversals events ≤ 2 * q.nd.queue.countP (fun x => x.pos = r.pos) + 2 := by
  have start : Sorted nd.queue ∧ nd.queue.Nodup := by
    cases init
    exact ⟨.nil, .nil⟩
  have sorted := sorted_run run start.1
  have distinct : q.nd.queue.Nodup :=
    run.invariant (fun q => q.nd.queue.Nodup) nodup_step start.2
  refine waits_run waiting (sorted_step sorted add) (nodup_step distinct add) ?_
  obtain ⟨_, rfl⟩ := add
  obtain ⟨before, after, split, result, _⟩ := sorted_add sorted r
  refine ⟨before, after, by rw [result], ?_⟩
  have phases : phase r.pos (sstfAddRequest q r).nd ≤ 2 := by
    unfold phase
    split
    · decide
    · split <;> decide
  rw [split, List.countP_append]
  omega

/-- `r` waits in front of an older request for its sector, and another one for it and
one below arrive while it waits. -/
theorem sstf_no_starvation_same_sector :
    ∃ earlier events q added t, Run SstfStep ⟨⟨.next, 0, []⟩, []⟩ earlier q ∧
      q.nd.queue = [⟨0, 5⟩] ∧ SstfStep q (.add ⟨1, 5⟩) added ∧ Run (WaitingStep ⟨1, 5⟩) added events t ∧
      t.nd.queue = [] ∧ reversals events = 3 ∧ reversals events ≤ 4 := by
  have before : Run SstfStep ⟨⟨.next, 0, []⟩, []⟩
      [.add ⟨9, 9⟩, .dispatch (some ⟨⟨9, 9⟩, .next, false⟩), .add ⟨0, 5⟩]
      ⟨⟨.next, 9, [⟨0, 5⟩]⟩, [⟨9, 9⟩]⟩ :=
    .cons ⟨by decide, rfl⟩ (.cons ⟨⟨1, rfl⟩, rfl⟩ (.cons ⟨by decide, rfl⟩ (.nil _)))
  have add : SstfStep ⟨⟨.next, 9, [⟨0, 5⟩]⟩, [⟨9, 9⟩]⟩ (.add ⟨1, 5⟩)
      ⟨⟨.next, 9, [⟨1, 5⟩, ⟨0, 5⟩]⟩, [⟨9, 9⟩]⟩ := ⟨by decide, rfl⟩
  have waiting : Run (WaitingStep ⟨1, 5⟩) ⟨⟨.next, 9, [⟨1, 5⟩, ⟨0, 5⟩]⟩, [⟨9, 9⟩]⟩
      [.dispatch (some ⟨⟨0, 5⟩, .prev, true⟩), .add ⟨2, 3⟩, .dispatch (some ⟨⟨2, 3⟩, .prev, false⟩),
        .add ⟨3, 5⟩, .dispatch (some ⟨⟨3, 5⟩, .next, true⟩), .dispatch (some ⟨⟨1, 5⟩, .prev, true⟩)]
      ⟨⟨.prev, 5, []⟩, [⟨9, 9⟩, ⟨0, 5⟩, ⟨2, 3⟩, ⟨3, 5⟩, ⟨1, 5⟩]⟩ :=
    .cons ⟨by decide, ⟨1, rfl⟩, rfl⟩ (.cons ⟨by decide, by decide, rfl⟩
      (.cons ⟨by decide, ⟨1, rfl⟩, rfl⟩ (.cons ⟨by decide, by decide, rfl⟩
        (.cons ⟨by decide, ⟨1, rfl⟩, rfl⟩ (.cons ⟨by decide, ⟨1, rfl⟩, rfl⟩ (.nil _))))))
  exact ⟨_, _, _, _, _, before, rfl, add, waiting, rfl, rfl,
    sstf_no_starvation ⟨.next, 0, []⟩ [] _ _ _ _ _ ⟨1, 5⟩ rfl before add waiting⟩

end Cs544.Sstf
