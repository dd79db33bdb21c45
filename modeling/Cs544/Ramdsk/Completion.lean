import Mathlib.Data.List.Nodup
import Cs544.Ramdsk.Request

/-! How `ramdsk_request` completes the requests of its queue.

A queue of file system requests is drained, one completion for each request. A
request of any other type is completed and then looked at again for ever, as the
loop goes on without fetching the next one. Segments are always completed with
status 0, whatever their transfer did.
-/

set_option autoImplicit false

namespace Cs544.Ramdsk

open Cs544.Library
open Cs544.Slob (Arch x86)

variable {a : Arch} {alg : Algorithm} {key : List Byte} {dev : RamdskDev} {memory : Nat → Nat → Byte}
  {s final : Driver} {rq : Request} {queue : List Request} {log : List Event}

/-! ## Completions in the log -/

theorem Handles.ids (handles : Handles dev rq log) : ∀ e ∈ log, e.id = rq.id := by
  induction handles with
  | last => simp [Event.id]
  | more _ _ _ ih => simpa [Event.id] using ih

/-- The one event that completes the request is the last one. -/
theorem Handles.completes (handles : Handles dev rq log) :
    log.countP Event.completes = 1 ∧ log.Pairwise fun e _ => e.completes = false := by
  induction handles with
  | last => simp [Event.completes]
  | more _ _ _ ih => simpa [Event.completes] using ih

theorem Serves.ids (serves : Serves dev queue log) : ∀ e ∈ log, e.id ∈ queue.map (·.id) := by
  induction serves with
  | nil => simp
  | cons first _ ih =>
    intro e member
    rcases List.mem_append.mp member with here | later
    · simp [first.ids e here]
    · exact List.mem_cons_of_mem _ (ih e later)

theorem Serves.once (serves : Serves dev queue log) (distinct : (queue.map (·.id)).Nodup) :
    (∀ rq ∈ queue, log.countP (fun e => e.completes && e.id == rq.id) = 1) ∧
      log.Pairwise fun e later => e.completes = true → later.id ≠ e.id := by
  induction serves with
  | nil => simp
  | @cons rq queue log later first rest ih =>
    obtain ⟨fresh, distinct⟩ : rq.id ∉ queue.map (·.id) ∧ (queue.map (·.id)).Nodup :=
      List.nodup_cons.mp distinct
    obtain ⟨counts, apart⟩ := ih distinct
    obtain ⟨one, lastly⟩ := first.completes
    have other (e : Event) (member : e ∈ later) : e.id ≠ rq.id := fun same =>
      fresh (same ▸ rest.ids e member)
    refine ⟨fun r member => ?_, List.pairwise_append.mpr ⟨?_, apart, fun e here e' there _ => ?_⟩⟩
    · rw [List.countP_append]
      rcases List.mem_cons.mp member with rfl | member
      · have mine : log.countP (fun e => e.completes && e.id == r.id) = log.countP Event.completes :=
          List.countP_congr fun e here => by simp [first.ids e here]
        have theirs : later.countP (fun e => e.completes && e.id == r.id) = 0 :=
          List.countP_eq_zero.mpr fun e there => by simp [other e there]
        rw [mine, theirs, one]
      · have differ : rq.id ≠ r.id := fun same =>
          fresh (same ▸ List.mem_map_of_mem (f := (·.id)) member)
        have mine : log.countP (fun e => e.completes && e.id == r.id) = 0 :=
          List.countP_eq_zero.mpr fun e here => by simp [first.ids e here, differ]
        rw [mine, counts r member]
    · refine lastly.imp fun {e later} open' complete => ?_
      rw [open'] at complete
      cases complete
    · rw [first.ids e here]
      exact other e' there

/-! ## Draining -/

/-- The requests the driver has still to handle. -/
def Driver.pending (s : Driver) : List Request := s.rq.toList ++ s.queue

theorem pending_fetch (s : Driver) : s.fetch.pending = s.queue := by
  cases queue : s.queue <;> simp [Driver.pending, Driver.fetch, queue]

/-- A round that is survived by good requests only needs a good request itself. -/
theorem round_good {t : Driver} (current : s.rq = some rq) (round : ramdskRound a alg key s rq = .ok t)
    (rest : ∀ r ∈ t.pending, r.Good a) : ∀ r ∈ s.pending, r.Good a := by
  cases type : rq.cmdType with
  | other code =>
    -- The request is still there, and it is not a good one.
    simp only [ramdskRound, type] at round
    cases round
    have same : rq.Good a := rest rq (by simp [Driver.pending, Driver.record, current])
    rw [same.1] at type
    cases type
  | fs =>
    have ready : ¬ rq.current.Oops a := fun oops => by
      simp only [ramdskRound, type, Driver.record, transfer_oops _ _ _ _ _ oops] at round
      cases round
    obtain ⟨transfer, result, _⟩ :=
      transfer_returns alg key s.dev (s.memory rq.current.buffer) rq.datadir ready
    intro r member
    simp only [Driver.pending, current, Option.toList_some, List.singleton_append, List.mem_cons] at member
    cases behind : rq.rest with
    | nil =>
      rw [round_last type result behind] at round
      cases round
      rw [pending_fetch] at rest
      rcases member with rfl | member
      · exact ⟨type, by simpa [Request.segments, behind] using ready⟩
      · exact rest r member
    | cons segment segments =>
      rw [round_more type result behind] at round
      cases round
      simp only [Driver.pending, Option.toList_some, List.singleton_append, List.mem_cons] at rest
      rcases member with rfl | member
      · have later := (rest _ (.inl rfl)).2
        refine ⟨type, fun other member => ?_⟩
        simp only [Request.segments, behind] at member later
        rcases List.mem_cons.mp member with rfl | member
        · exact ready
        · exact later other member
      · exact rest r (.inr member)

/-- After a round there is a current request as long as there is a queued one. -/
theorem round_idle {t : Driver} (current : s.rq = some rq) (round : ramdskRound a alg key s rq = .ok t)
    (idle : t.rq = none) : t.queue = [] := by
  unfold ramdskRound at round
  simp only at round
  split at round
  · cases round
    simp [Driver.record, current] at idle
  · split at round
    · cases round
    · split at round
      · cases round
        cases idle
      · cases round
        cases queue : s.queue with
        | nil => simp [Driver.fetch, Driver.record, queue]
        | cons next rest => simp [Driver.fetch, Driver.record, queue] at idle

/-- Only good requests let the loop come to an end. -/
theorem loop_good {fuel : Nat} (result : ramdskLoop a alg key fuel s = .ok final)
    (idle : s.rq = none → s.queue = []) : ∀ rq ∈ s.pending, rq.Good a := by
  induction fuel generalizing s with
  | zero => cases result
  | succ fuel ih =>
    cases current : s.rq with
    | none => simp [Driver.pending, current, idle current]
    | some rq =>
      cases round : ramdskRound a alg key s rq with
      | error fault =>
        simp only [ramdskLoop, current, round] at result
        cases result
      | ok t =>
        rw [loop_round current round] at result
        exact round_good current round (ih result (round_idle current round))

theorem request_good {fuel : Nat} (result : ramdskRequest a alg key fuel dev memory queue = .ok final) :
    ∀ rq ∈ queue, rq.Good a := by
  have good := loop_good result fun idle => by
    cases queue with
    | nil => rfl
    | cons rq queue => cases idle
  rwa [pending_fetch] at good

/-- `ramdsk_request` returns, completes every request of the queue exactly once and
touches none after its completion. -/
def Drains (a : Arch) (alg : Algorithm) (key : List Byte) (dev : RamdskDev) (memory : Nat → Nat → Byte)
    (queue : List Request) : Prop :=
  ∃ fuel final, ramdskRequest a alg key fuel dev memory queue = .ok final ∧
    (∀ rq ∈ queue, final.log.countP (fun e => e.completes && e.id == rq.id) = 1) ∧
    final.log.Pairwise fun e later => e.completes = true → later.id ≠ e.id

/-- The queue is drained exactly when it holds file system requests only and no
transfer runs into a scatterlist that could not be allocated. -/
theorem ramdsk_request_drains (a : Arch) (alg : Algorithm) (key : List Byte) (dev : RamdskDev)
    (memory : Nat → Nat → Byte) (queue : List Request) (distinct : (queue.map (·.id)).Nodup) :
    Drains a alg key dev memory queue ↔
      ∀ rq ∈ queue, rq.cmdType = .fs ∧ ∀ segment ∈ rq.segments, ¬ segment.Oops a := by
  constructor
  · rintro ⟨fuel, final, result, _⟩
    exact request_good result
  · intro good
    obtain ⟨fuel, final, later, result, records, serves⟩ :=
      serve_queue alg key good dev memory [] (Eq.refl dev.size)
    refine ⟨fuel, final, result, ?_⟩
    rw [records, List.nil_append]
    exact serves.once distinct

def allOk : Calls := ⟨true, true, true, 0, 0, 0⟩

theorem ramdsk_request_drains_two_segments :
    Drains x86 xorEcb [7] ⟨2 ^ 21, fun _ => 0, by decide, by decide⟩ (fun _ _ => 0)
      [⟨1, .fs, true, ⟨0, 8, 0, allOk⟩, [⟨8, 1, 1, allOk⟩]⟩, ⟨2, .fs, false, ⟨4, 2, 2, allOk⟩, []⟩] := by
  refine (ramdsk_request_drains _ _ _ _ _ _ (by decide)).mpr ?_
  have ready (segment : Segment) (allocated : Allocated x86 segment.calls segment.nsect) :
      ¬ segment.Oops x86 := fun oops => oops.2.2 allocated
  simp only [List.mem_cons, List.not_mem_nil, or_false, forall_eq_or_imp, forall_eq, Request.segments,
    true_and]
  exact ⟨⟨ready _ (by decide), ready _ (by decide)⟩, ready _ (by decide), fun _ none' => none'.elim⟩

/-- A single request of another type is completed in every round and never left. -/
theorem ramdsk_request_stuck :
    ¬ Drains x86 xorEcb [7] ⟨2 ^ 21, fun _ => 0, by decide, by decide⟩ (fun _ _ => 0)
      [⟨1, .other 2, false, ⟨0, 8, 0, allOk⟩, []⟩] := by
  rintro ⟨fuel, final, result, _⟩
  have good := (request_good result _ (List.mem_singleton.mpr rfl)).1
  cases good

/-! ## Honesty -/

/-- Every segment in the log was completed with status 0 exactly if all of its bytes
were transferred. -/
def Honest (dev : RamdskDev) (log : List Event) : Prop :=
  ∀ id segment moved status more, Event.endCur id segment moved status more ∈ log →
    (status = 0 ↔ Transferred dev segment moved)

theorem Handles.reported (handles : Handles dev rq log) :
    (∀ segment ∈ rq.segments, ∃ moved more, Event.endCur rq.id segment moved 0 more ∈ log) ∧
    ∀ id segment moved status more, Event.endCur id segment moved status more ∈ log →
      status = 0 ∧ segment ∈ rq.segments ∧ Reports dev segment moved := by
  induction handles with
  | last rest report =>
    refine ⟨by simp [Request.segments, rest], fun id segment moved status more member => ?_⟩
    obtain ⟨_, rfl, rfl, rfl, _⟩ : _ ∧ _ ∧ _ ∧ _ ∧ _ := by simpa using member
    exact ⟨rfl, by simp [Request.segments], report⟩
  | @more rq segment rest moved log behind report later ih =>
    obtain ⟨all, only⟩ := ih
    refine ⟨fun other member => ?_, fun id other moved' status more member => ?_⟩
    · simp only [Request.segments, behind] at member
      rcases List.mem_cons.mp member with rfl | member
      · exact ⟨moved, true, by simp⟩
      · obtain ⟨moved', more, found⟩ := all other member
        exact ⟨moved', more, by simp [found]⟩
    · rcases List.mem_cons.mp member with none' | member
      · cases none'
      · rcases List.mem_cons.mp member with here | member
        · cases here
          exact ⟨rfl, by simp [Request.segments], report⟩
        · obtain ⟨zero, found, report'⟩ := only id other moved' status more member
          simp only [Request.segments] at found
          exact ⟨zero, by simp [Request.segments, behind, found], report'⟩

theorem Serves.reported (serves : Serves dev queue log) :
    (∀ rq ∈ queue, ∀ segment ∈ rq.segments, ∃ moved more, Event.endCur rq.id segment moved 0 more ∈ log) ∧
    ∀ id segment moved status more, Event.endCur id segment moved status more ∈ log →
      status = 0 ∧ (∃ rq ∈ queue, segment ∈ rq.segments) ∧ Reports dev segment moved := by
  induction serves with
  | nil => simp
  | @cons rq queue log later first rest ih =>
    obtain ⟨all, only⟩ := ih
    obtain ⟨mine, onlyMine⟩ := first.reported
    refine ⟨fun r member segment found => ?_, fun id segment moved status more member => ?_⟩
    · rcases List.mem_cons.mp member with rfl | member
      · obtain ⟨moved, more, here⟩ := mine segment found
        exact ⟨moved, more, List.mem_append_left _ here⟩
      · obtain ⟨moved, more, there⟩ := all r member segment found
        exact ⟨moved, more, List.mem_append_right _ there⟩
    · rcases List.mem_append.mp member with here | there
      · obtain ⟨zero, found, report⟩ := onlyMine id segment moved status more here
        exact ⟨zero, ⟨rq, by simp, found⟩, report⟩
      · obtain ⟨zero, ⟨r, queued, found⟩, report⟩ := only id segment moved status more there
        exact ⟨zero, ⟨r, by simp [queued], found⟩, report⟩

/-- Completion is honest exactly when no transfer fails: every transform is allocated
and keyed, every range lies on the device and every cipher call gets through. -/
theorem ramdsk_honest_completion (a : Arch) (alg : Algorithm) (key : List Byte) (dev : RamdskDev)
    (memory : Nat → Nat → Byte) (queue : List Request) (fs : ∀ rq ∈ queue, rq.cmdType = .fs)
    (allocated : ∀ rq ∈ queue, ∀ segment ∈ rq.segments, Allocated a segment.calls segment.nsect) :
    ∃ fuel final, ramdskRequest a alg key fuel dev memory queue = .ok final ∧
      (Honest dev final.log ↔ ∀ rq ∈ queue, ∀ segment ∈ rq.segments, segment.Clean dev) := by
  have good (rq : Request) (member : rq ∈ queue) : rq.Good a :=
    ⟨fs rq member, fun segment found oops => oops.2.2 (allocated rq member segment found)⟩
  obtain ⟨fuel, final, log, result, records, serves⟩ :=
    serve_queue alg key good dev memory [] (Eq.refl dev.size)
  obtain ⟨all, only⟩ := serves.reported
  refine ⟨fuel, final, result, ?_⟩
  rw [records, List.nil_append]
  constructor
  · intro honest rq member segment found
    obtain ⟨moved, more, event⟩ := all rq member segment found
    have report := (only _ _ _ _ _ event).2.2 (allocated rq member segment found).positive
    exact report.mp ((honest _ _ _ _ _ event).mp rfl)
  · intro clean id segment moved status more event
    obtain ⟨zero, ⟨rq, member, found⟩, report⟩ := only _ _ _ _ _ event
    have transferred := (report (allocated rq member segment found).positive).mpr (clean rq member segment found)
    exact iff_of_true zero transferred

theorem ramdsk_honest_completion_one_write :
    ∃ fuel final, ramdskRequest x86 xorEcb [7] fuel ⟨2 ^ 21, fun _ => 0, by decide, by decide⟩ (fun _ _ => 0)
        [⟨1, .fs, true, ⟨0, 8, 0, allOk⟩, []⟩] = .ok final ∧
      Honest ⟨2 ^ 21, fun _ => 0, by decide, by decide⟩ final.log := by
  obtain ⟨fuel, final, result, honest⟩ := ramdsk_honest_completion x86 xorEcb [7]
    ⟨2 ^ 21, fun _ => 0, by decide, by decide⟩ (fun _ _ => 0) [⟨1, .fs, true, ⟨0, 8, 0, allOk⟩, []⟩]
    (by simp) (by
      simp only [List.mem_singleton, forall_eq, Request.segments]
      decide)
  refine ⟨fuel, final, result, honest.mpr ?_⟩
  simp only [List.mem_singleton, forall_eq, Request.segments]
  exact ⟨rfl, rfl, by decide, .inl rfl⟩

/-- A write whose transform cannot be allocated moves nothing and is completed with
status 0. -/
theorem ramdsk_completion_not_honest :
    ∃ fuel final, ramdskRequest x86 xorEcb [7] fuel ⟨2 ^ 21, fun _ => 0, by decide, by decide⟩ (fun _ _ => 0)
        [⟨1, .fs, true, ⟨0, 8, 0, { allOk with tfm := false }⟩, []⟩] = .ok final ∧
      ¬ Honest ⟨2 ^ 21, fun _ => 0, by decide, by decide⟩ final.log := by
  refine ⟨2, _, rfl, fun honest => ?_⟩
  have moved := (honest 1 ⟨0, 8, 0, { allOk with tfm := false }⟩ ⟨0, 0⟩ 0 false (by decide)).mp rfl
  exact absurd moved.1 (by decide)

end Cs544.Ramdsk
