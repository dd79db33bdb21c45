import Cs544.Library.Ring
import Cs544.Library.Runs

/-! The SSTF I/O scheduler of `sstf-iosched.c`.

The request queue is a ring of requests in the order of their sectors. Dispatching
looks for a request strictly ahead of the last dispatched sector; a loop that finds
none leaves its cursor on the head of the ring, and the neighbour of the head in the
other direction is dispatched.
-/

set_option autoImplicit false

namespace Cs544.Sstf

open Cs544.Library

/-- `struct request`: its identity and `blk_rq_pos`. -/
structure Request where
  id : Nat
  pos : Nat
  deriving DecidableEq, Repr

inductive Direction where
  | next
  | prev
  deriving DecidableEq, Repr

structure SstfData where
  direction : Direction
  prevsec : Nat
  queue : List Request
  deriving DecidableEq, Repr

/-- `struct request_queue`: the elevator's data and the dispatch list. -/
structure RequestQueue where
  nd : SstfData
  queueHead : List Request
  deriving DecidableEq, Repr

/-- `sstf_init_queue`; `allocated` is the outcome of `kmalloc_node`. -/
def sstfInitQueue (allocated : Bool) : Option SstfData :=
  if allocated then some ⟨.next, 0, []⟩ else none

/-- `elv_dispatch_add_tail`: the request becomes the last of the dispatch list. -/
def elvDispatchAddTail (q : RequestQueue) (rq : Request) : RequestQueue :=
  { q with queueHead := q.queueHead ++ [rq] }

/-- `list_del_init(&next->queuelist)` unlinks `next` from the list it is on. -/
def sstfMergedRequests (q : RequestQueue) (_rq next : Request) : RequestQueue :=
  ⟨{ q.nd with queue := q.nd.queue.erase next }, q.queueHead.erase next⟩

/-- The direction and the cursor of `rq_next` at the label `dispatch`. -/
def sstfChoose (nd : SstfData) : Direction × Ring.Cursor :=
  match nd.direction with
  | .next =>
      match Ring.forEach (fun rq => decide (rq.pos > nd.prevsec)) nd.queue with
      | some i => (.next, some i)
      | none => (.prev, Ring.prev nd.queue none)
  | .prev =>
      match Ring.forEachPrev (fun rq => decide (rq.pos < nd.prevsec)) nd.queue with
      | some i => (.prev, some i)
      | none => (.next, Ring.next nd.queue none)

/-- `sstf_dispatch`. There is no result when the head of the queue would be taken
for a request. -/
def sstfDispatch (q : RequestQueue) : Option (Nat × RequestQueue) :=
  if q.nd.queue.isEmpty then some (0, q)
  else
    let (direction, rqNext) := sstfChoose q.nd
    match Ring.entry q.nd.queue rqNext with
    | none => none
    | some rq =>
        let nd : SstfData := ⟨direction, rq.pos, Ring.del q.nd.queue rqNext⟩
        some (1, elvDispatchAddTail { q with nd } rq)

/-- `sstf_add_request`: behind the last request with a smaller sector. -/
def sstfAddRequest (q : RequestQueue) (rq : Request) : RequestQueue :=
  let lo := Ring.forEachPrev (fun pos => decide (pos.pos < rq.pos)) q.nd.queue
  { q with nd := { q.nd with queue := Ring.add q.nd.queue rq lo } }

/-! ## What the operations do -/

variable {q t : RequestQueue} {nd : SstfData} {rq : Request}

/-- The four ways `sstf_dispatch` picks the request between `before` and `after`,
and the direction it leaves behind. -/
inductive Choice (nd : SstfData) : Direction → List Request → Request → List Request → Prop where
  | up {before after : List Request} {rq : Request} (direction : nd.direction = .next)
      (passed : ∀ x ∈ before, x.pos ≤ nd.prevsec) (ahead : nd.prevsec < rq.pos) :
      Choice nd .next before rq after
  | top {before : List Request} {rq : Request} (direction : nd.direction = .next)
      (passed : ∀ x ∈ before ++ [rq], x.pos ≤ nd.prevsec) : Choice nd .prev before rq []
  | down {before after : List Request} {rq : Request} (direction : nd.direction = .prev)
      (passed : ∀ x ∈ after, nd.prevsec ≤ x.pos) (ahead : rq.pos < nd.prevsec) :
      Choice nd .prev before rq after
  | bottom {after : List Request} {rq : Request} (direction : nd.direction = .prev)
      (passed : ∀ x ∈ rq :: after, nd.prevsec ≤ x.pos) : Choice nd .next [] rq after

theorem sstfChoose_cases (nd : SstfData) (some' : nd.queue ≠ []) :
    ∃ direction before rq after, nd.queue = before ++ rq :: after ∧
      sstfChoose nd = (direction, some before.length) ∧ Choice nd direction before rq after := by
  cases going : nd.direction with
  | next =>
    rcases Ring.forEach_cases (fun rq => decide (rq.pos > nd.prevsec)) nd.queue with
      ⟨fell, passed⟩ | ⟨before, rq, after, split, found, ahead, passed⟩
    · have last := List.dropLast_append_getLast some'
      refine ⟨.prev, nd.queue.dropLast, nd.queue.getLast some', [], last.symm, ?_, .top going ?_⟩
      · simp only [sstfChoose, going, fell]
        rw [← last, Ring.prev_head, List.dropLast_concat]
      · intro x member
        have := passed x (last ▸ member)
        simpa using this
    · refine ⟨.next, before, rq, after, split, by simp only [sstfChoose, going, found], .up going ?_ ?_⟩
      · intro x member
        simpa using passed x member
      · simpa using ahead
  | prev =>
    rcases Ring.forEachPrev_cases (fun rq => decide (rq.pos < nd.prevsec)) nd.queue with
      ⟨fell, passed⟩ | ⟨before, rq, after, split, found, ahead, passed⟩
    · obtain ⟨rq, after, split⟩ := List.exists_cons_of_ne_nil some'
      refine ⟨.next, [], rq, after, split, ?_, .bottom going ?_⟩
      · simp only [sstfChoose, going, fell]
        rw [split, Ring.next_head, List.length_nil]
      · intro x member
        simpa using passed x (split ▸ member)
    · refine ⟨.prev, before, rq, after, split, by simp only [sstfChoose, going, found], .down going ?_ ?_⟩
      · intro x member
        simpa using passed x member
      · simpa using ahead

/-- `sstf_dispatch` on a queue that is not empty never takes the head for a request. -/
theorem sstfDispatch_cases (q : RequestQueue) (some' : q.nd.queue ≠ []) :
    ∃ direction before rq after, q.nd.queue = before ++ rq :: after ∧
      Choice q.nd direction before rq after ∧
      sstfDispatch q = some (1, ⟨⟨direction, rq.pos, before ++ after⟩, q.queueHead ++ [rq]⟩) := by
  obtain ⟨direction, before, rq, after, split, chosen, choice⟩ := sstfChoose_cases q.nd some'
  refine ⟨direction, before, rq, after, split, choice, ?_⟩
  have full : q.nd.queue.isEmpty = false := by simpa using some'
  rw [sstfDispatch, if_neg (by simp [full])]
  simp only [chosen, split, Ring.entry_split, Ring.del_split, elvDispatchAddTail]

/-- A new request goes behind all smaller sectors and in front of all others of
its own, in a queue in the order of sectors. -/
theorem sstfAddRequest_cases (q : RequestQueue) (rq : Request) :
    ∃ before after, q.nd.queue = before ++ after ∧
      (sstfAddRequest q rq).nd = { q.nd with queue := before ++ rq :: after } ∧
      (∀ x ∈ before.getLast?, x.pos < rq.pos) ∧ ∀ x ∈ after, rq.pos ≤ x.pos := by
  rcases Ring.forEachPrev_cases (fun pos => decide (pos.pos < rq.pos)) q.nd.queue with
    ⟨fell, passed⟩ | ⟨before, lo, after, split, found, smaller, passed⟩
  · refine ⟨[], q.nd.queue, rfl, by simp [sstfAddRequest, fell], by simp, fun x member => ?_⟩
    simpa using passed x member
  · refine ⟨before ++ [lo], after, by simp [split], ?_, ?_, fun x member => ?_⟩
    · simp only [sstfAddRequest, found]
      simp only [split, Ring.add_split, List.append_assoc, List.singleton_append]
    · simpa using smaller
    · simpa using passed x member

/-! ## Runs -/

/-- What one call of `sstf_dispatch` handed over, the direction it left behind and
whether it had reversed. -/
structure Dispatched where
  request : Request
  direction : Direction
  reversed : Bool
  deriving DecidableEq, Repr

inductive Event where
  | add (rq : Request)
  | merged (rq next : Request)
  | dispatch (sent : Option Dispatched)
  deriving DecidableEq, Repr

/-- What was appended to the dispatch list between two states. -/
def sent (q t : RequestQueue) : Option Dispatched :=
  (t.queueHead[q.queueHead.length]?).map fun rq =>
    ⟨rq, t.nd.direction, decide (q.nd.direction ≠ t.nd.direction)⟩

/-- A request is added only while it is not queued. -/
def SstfStep (q : RequestQueue) : Event → RequestQueue → Prop
  | .add rq, t => (∀ x ∈ q.nd.queue, x.id ≠ rq.id) ∧ t = sstfAddRequest q rq
  | .merged rq next, t => t = sstfMergedRequests q rq next
  | .dispatch d, t => (∃ n, sstfDispatch q = some (n, t)) ∧ d = sent q t

def dispatches (events : List Event) : List Dispatched :=
  events.filterMap fun
    | .dispatch d => d
    | _ => none

@[simp] theorem dispatches_nil : dispatches [] = [] := rfl

@[simp] theorem dispatches_add (events : List Event) :
    dispatches (.add rq :: events) = dispatches events := rfl

@[simp] theorem dispatches_merged (next : Request) (events : List Event) :
    dispatches (.merged rq next :: events) = dispatches events := rfl

@[simp] theorem dispatches_none (events : List Event) :
    dispatches (.dispatch none :: events) = dispatches events := rfl

@[simp] theorem dispatches_some (d : Dispatched) (events : List Event) :
    dispatches (.dispatch (some d) :: events) = d :: dispatches events := rfl

/-- A step on an empty queue, or one of the four choices. -/
theorem dispatch_step {d : Option Dispatched} (step : SstfStep q (.dispatch d) t) :
    (q.nd.queue = [] ∧ t = q ∧ d = none) ∨
    ∃ direction before rq after, q.nd.queue = before ++ rq :: after ∧
      Choice q.nd direction before rq after ∧
      t = ⟨⟨direction, rq.pos, before ++ after⟩, q.queueHead ++ [rq]⟩ ∧
      d = some ⟨rq, direction, decide (q.nd.direction ≠ direction)⟩ := by
  obtain ⟨⟨n, result⟩, rfl⟩ := step
  by_cases empty : q.nd.queue = []
  · obtain ⟨rfl, rfl⟩ : n = 0 ∧ t = q := by simpa [sstfDispatch, empty] using result.symm
    exact .inl ⟨empty, rfl, by simp [sent]⟩
  · obtain ⟨direction, before, rq, after, split, choice, served⟩ := sstfDispatch_cases q empty
    rw [served] at result
    cases result
    exact .inr ⟨direction, before, rq, after, split, choice, rfl, by simp [sent]⟩

end Cs544.Sstf
