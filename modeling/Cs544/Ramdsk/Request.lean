import Cs544.Ramdsk.ReadAfterWrite

/-! `ramdsk_request`, the request function of the RAM disk.

The block layer is a queue of requests, each with a current segment and the ones
behind it. The driver keeps a log of what it does to requests: reading one at the
top of its loop, completing all of it, and completing its current segment. The log
of a segment also holds what its transfer moved, which the code throws away.
-/

set_option autoImplicit false

namespace Cs544.Ramdsk

open Cs544.Library
open Cs544.Slob (Arch x86)

/-- `rq->cmd_type`: `REQ_TYPE_FS` or any other. -/
inductive CmdType where
  | fs
  | other (code : Nat)
  deriving DecidableEq, Repr

/-- A segment of a request: `blk_rq_pos`, `blk_rq_cur_sectors`, the memory behind
`rq->buffer` and the outcome of the calls its transfer makes. -/
structure Segment where
  pos : Nat
  nsect : Nat
  buffer : Nat
  calls : Calls
  deriving DecidableEq, Repr

/-- A request has a current segment; `datadir` is `rq_data_dir`. -/
structure Request where
  id : Nat
  cmdType : CmdType
  datadir : Bool
  current : Segment
  rest : List Segment
  deriving DecidableEq, Repr

def Request.segments (rq : Request) : List Segment := rq.current :: rq.rest

inductive Event where
  | inspect (id : Nat)
  | endAll (id : Nat) (status : Int)
  | endCur (id : Nat) (segment : Segment) (moved : Extent) (status : Int) (more : Bool)
  deriving DecidableEq, Repr

def Event.id : Event → Nat
  | .inspect id => id
  | .endAll id _ => id
  | .endCur id _ _ _ _ => id

def Event.completes : Event → Bool
  | .inspect _ => false
  | .endAll _ _ => true
  | .endCur _ _ _ _ more => !more

structure Driver where
  dev : RamdskDev
  memory : Nat → Nat → Byte
  rq : Option Request
  queue : List Request
  log : List Event

/-- `blk_fetch_request`: the next queued request, which leaves the queue. -/
def Driver.fetch (s : Driver) : Driver :=
  match s.queue with
  | [] => { s with rq := none }
  | rq :: queue => { s with rq := some rq, queue }

def Driver.record (s : Driver) (event : Event) : Driver := { s with log := s.log ++ [event] }

/-- What `__blk_end_request_cur` leaves of a request that has more segments. -/
def Request.advance (rq : Request) : Option Request :=
  match rq.rest with
  | [] => none
  | segment :: rest => some { rq with current := segment, rest }

def eio : Int := -5

variable (a : Arch) (alg : Algorithm) (key : List Byte)

/-- One round of the loop. -/
def ramdskRound (s : Driver) (rq : Request) : Except Fault Driver :=
  let s := s.record (.inspect rq.id)
  match rq.cmdType with
  -- `continue` comes before the next request is fetched.
  | .other _ => .ok (s.record (.endAll rq.id eio))
  | .fs =>
      let segment := rq.current
      match ramdskTransfer a alg key segment.calls s.dev segment.pos segment.nsect
          (s.memory segment.buffer) rq.datadir with
      | .error fault => .error fault
      | .ok t =>
          let s := { s with dev := t.dev, memory := Function.update s.memory segment.buffer t.buffer }
          match rq.advance with
          | some next => .ok { s.record (.endCur rq.id segment t.moved 0 true) with rq := some next }
          | none => .ok (s.record (.endCur rq.id segment t.moved 0 false)).fetch

/-- `while (rq != NULL)`. -/
def ramdskLoop : Nat → Driver → Except Fault Driver
  | 0, _ => .error .diverges
  | fuel + 1, s =>
      match s.rq with
      | none => .ok s
      | some rq =>
          match ramdskRound a alg key s rq with
          | .error fault => .error fault
          | .ok s => ramdskLoop fuel s

/-- `ramdsk_request`. It returns when some number of rounds is enough. -/
def ramdskRequest (fuel : Nat) (dev : RamdskDev) (memory : Nat → Nat → Byte) (queue : List Request) :
    Except Fault Driver :=
  ramdskLoop a alg key fuel (Driver.fetch ⟨dev, memory, none, queue, []⟩)

/-! ## One segment -/

variable {a alg key} {dev : RamdskDev} {s t : Driver} {rq : Request} {segment : Segment} {moved : Extent}
  {queue : List Request} {log log' : List Event}

/-- The transfer of the segment reaches `sg_init_table` without its scatterlists. -/
def Segment.Oops (a : Arch) (segment : Segment) : Prop :=
  segment.calls.tfm = true ∧ segment.calls.setkey = 0 ∧ ¬ Allocated a segment.calls segment.nsect

/-- All bytes of the segment, and those of the device it stands for, were exchanged. -/
def Transferred (dev : RamdskDev) (segment : Segment) (moved : Extent) : Prop :=
  moved = ⟨segment.pos * sectorSize, segment.nsect * sectorSize⟩ ∧ InRange dev segment.pos segment.nsect

/-- None of the failures of `ramdsk_transfer` happens to the segment. -/
def Segment.Clean (dev : RamdskDev) (segment : Segment) : Prop :=
  segment.calls.tfm = true ∧ segment.calls.setkey = 0 ∧ InRange dev segment.pos segment.nsect ∧
    (segment.calls.ret = 0 ∨ segment.nsect * sectorSize ≤ segment.calls.processed)

theorem length_stored (calls : Calls) (text : List Byte) :
    (stored calls text).length = if calls.ret = 0 then text.length else min calls.processed text.length := by
  unfold stored
  split
  · rfl
  · exact List.length_take

/-- A transfer faults only without its scatterlists, and it never resizes the device. -/
theorem transfer_returns (alg : Algorithm) (key : List Byte) (dev : RamdskDev) (buffer : Nat → Byte)
    (datadir : Bool) (ready : ¬ segment.Oops a) :
    ∃ t, ramdskTransfer a alg key segment.calls dev segment.pos segment.nsect buffer datadir = .ok t ∧
      t.dev.size = dev.size := by
  unfold ramdskTransfer
  simp only
  split
  · exact ⟨_, rfl, rfl⟩
  next tfm =>
    split
    · exact ⟨_, rfl, rfl⟩
    next setkey =>
      split
      next absent =>
        refine absurd ⟨by simpa using tfm, by simpa using setkey, fun allocated => ?_⟩ ready
        simp [allocated.1, allocated.2] at absent
      next =>
        split
        · exact ⟨_, rfl, rfl⟩
        · split <;> exact ⟨_, rfl, rfl⟩

theorem transfer_oops (alg : Algorithm) (key : List Byte) (dev : RamdskDev) (buffer : Nat → Byte)
    (datadir : Bool) (oops : segment.Oops a) :
    ramdskTransfer a alg key segment.calls dev segment.pos segment.nsect buffer datadir = .error .oops := by
  obtain ⟨tfm, setkey, absent⟩ := oops
  have tables : ¬ ((vmalloc segment.calls.sgIn (npages a (ulong a (segment.nsect * sectorSize))) &&
      vmalloc segment.calls.sgOut (npages a (ulong a (segment.nsect * sectorSize)))) = true) := by
    rw [Bool.and_eq_true]
    exact absent
  simp only [ramdskTransfer, tfm, setkey, Bool.eq_false_of_not_eq_true tables, Bool.not_true,
    Bool.not_false, Bool.false_eq_true, ne_eq, not_true_eq_false, if_false, if_true]

/-- A transfer moves all bytes of the segment exactly when none of its failures happens. -/
theorem transfer_moved {buffer : Nat → Byte} {datadir : Bool} {t : Transfer} (positive : 0 < segment.nsect)
    (result : ramdskTransfer a alg key segment.calls dev segment.pos segment.nsect buffer datadir = .ok t) :
    Transferred dev segment t.moved ↔ segment.Clean dev := by
  have idle : ¬ Transferred dev segment ⟨0, 0⟩ := by
    rintro ⟨same, _⟩
    have := Nat.mul_pos positive (show 0 < sectorSize by decide)
    rw [Extent.mk.injEq] at same
    omega
  by_cases range : InRange dev segment.pos segment.nsect
  · by_cases tfm : segment.calls.tfm = true
    · by_cases setkey : segment.calls.setkey = 0
      · by_cases allocated : Allocated a segment.calls segment.nsect
        · rw [ramdskTransfer_eq alg key range allocated tfm setkey] at result
          cases result
          have message : (if datadir then gather buffer (List.range' 0 (segment.nsect * sectorSize))
              else gather dev.data (List.range' (segment.pos * sectorSize) (segment.nsect * sectorSize))).length =
                segment.nsect * sectorSize := by cases datadir <;> simp [gather]
          simp only [Transferred, Segment.Clean, range, tfm, setkey, and_true, true_and, Extent.mk.injEq,
            length_stored, length_ciphered, message]
          by_cases ret : segment.calls.ret = 0
          · simp [ret]
          · simp only [ret, if_false, false_or]
            omega
        · rw [transfer_oops alg key dev buffer datadir ⟨tfm, setkey, allocated⟩] at result
          cases result
      · have skipped : t.moved = ⟨0, 0⟩ := by
          simp only [ramdskTransfer, tfm, setkey, Bool.not_true, Bool.false_eq_true, if_false, ne_eq,
            not_false_eq_true, if_true] at result
          cases result
          rfl
        rw [skipped]
        exact iff_of_false idle fun clean => setkey clean.2.1
    · have skipped : t.moved = ⟨0, 0⟩ := by
        simp only [ramdskTransfer, Bool.eq_false_of_not_eq_true tfm, Bool.not_false, if_true] at result
        cases result
        rfl
      rw [skipped]
      exact iff_of_false idle fun clean => tfm clean.1
  -- Beyond the device nothing counts as transferred, even where the test wraps around.
  · exact iff_of_false (fun moved => range moved.2) fun clean => range clean.2.2.1

/-! ## The log of a drained queue -/

/-- What the log says of a segment: that it moved, unless one of its failures happened. -/
def Reports (dev : RamdskDev) (segment : Segment) (moved : Extent) : Prop :=
  0 < segment.nsect → (Transferred dev segment moved ↔ segment.Clean dev)

/-- The log of one request, segment by segment. -/
inductive Handles (dev : RamdskDev) : Request → List Event → Prop where
  | last {rq : Request} {moved : Extent} (rest : rq.rest = []) (report : Reports dev rq.current moved) :
      Handles dev rq [.inspect rq.id, .endCur rq.id rq.current moved 0 false]
  | more {rq : Request} {segment : Segment} {rest : List Segment} {moved : Extent} {log : List Event}
      (behind : rq.rest = segment :: rest) (report : Reports dev rq.current moved)
      (later : Handles dev { rq with current := segment, rest } log) :
      Handles dev rq (.inspect rq.id :: .endCur rq.id rq.current moved 0 true :: log)

/-- The log of a whole queue, request by request. -/
inductive Serves (dev : RamdskDev) : List Request → List Event → Prop where
  | nil : Serves dev [] []
  | cons {rq : Request} {queue : List Request} {log later : List Event} (first : Handles dev rq log)
      (rest : Serves dev queue later) : Serves dev (rq :: queue) (log ++ later)

/-- The driver gets to the end of the request. -/
def Request.Good (a : Arch) (rq : Request) : Prop :=
  rq.cmdType = .fs ∧ ∀ segment ∈ rq.segments, ¬ segment.Oops a

theorem loop_round {fuel : Nat} (current : s.rq = some rq) (round : ramdskRound a alg key s rq = .ok t) :
    ramdskLoop a alg key (fuel + 1) s = ramdskLoop a alg key fuel t := by
  simp only [ramdskLoop, current, round]

section
variable {transfer : Transfer} (fs : rq.cmdType = .fs)
  (result : ramdskTransfer a alg key rq.current.calls s.dev rq.current.pos rq.current.nsect
    (s.memory rq.current.buffer) rq.datadir = .ok transfer)

theorem reports (size : s.dev.size = dev.size) (result : ramdskTransfer a alg key rq.current.calls s.dev
    rq.current.pos rq.current.nsect (s.memory rq.current.buffer) rq.datadir = .ok transfer) :
    Reports dev rq.current transfer.moved := by
  intro positive
  have moved := transfer_moved positive result
  simpa only [Transferred, Segment.Clean, InRange, size] using moved

include fs result

theorem round_last (rest : rq.rest = []) :
    ramdskRound a alg key s rq = .ok (Driver.fetch ⟨transfer.dev,
      Function.update s.memory rq.current.buffer transfer.buffer, none, s.queue,
      s.log ++ [.inspect rq.id, .endCur rq.id rq.current transfer.moved 0 false]⟩) := by
  simp only [ramdskRound, fs, Driver.record, result, Request.advance, rest, List.append_assoc,
    List.singleton_append]
  cases queue : s.queue <;> simp [Driver.fetch]

theorem round_more {segment : Segment} {rest : List Segment} (behind : rq.rest = segment :: rest) :
    ramdskRound a alg key s rq = .ok ⟨transfer.dev,
      Function.update s.memory rq.current.buffer transfer.buffer,
      some { rq with current := segment, rest }, s.queue,
      s.log ++ [.inspect rq.id, .endCur rq.id rq.current transfer.moved 0 true]⟩ := by
  simp only [ramdskRound, fs, Driver.record, result, Request.advance, behind, List.append_assoc,
    List.singleton_append]

end

/-- A good request is handled segment by segment, then the next one is fetched. -/
theorem handle_request (alg : Algorithm) (key : List Byte) (good : rq.Good a)
    (current : s.rq = some rq) (size : s.dev.size = dev.size) :
    ∃ rounds d memory log,
      (∀ fuel, ramdskLoop a alg key (fuel + rounds) s =
        ramdskLoop a alg key fuel (Driver.fetch ⟨d, memory, none, s.queue, s.log ++ log⟩)) ∧
      d.size = dev.size ∧ Handles dev rq log := by
  -- The induction is on the segments left behind the current one.
  generalize left : rq.rest = rest
  induction rest generalizing rq s with
  | nil =>
    obtain ⟨t, result, same⟩ := transfer_returns alg key s.dev (s.memory rq.current.buffer) rq.datadir
      (good.2 rq.current (by simp [Request.segments]))
    exact ⟨1, _, _, _, fun fuel => loop_round current (round_last good.1 result left), same.trans size,
      .last left (reports size result)⟩
  | cons segment rest ih =>
    obtain ⟨t, result, same⟩ := transfer_returns alg key s.dev (s.memory rq.current.buffer) rq.datadir
      (good.2 rq.current (by simp [Request.segments]))
    have good' : Request.Good a { rq with current := segment, rest } :=
      ⟨good.1, fun other member => good.2 other (by
        simp only [Request.segments] at member ⊢
        simp [left, member])⟩
    obtain ⟨rounds, d, memory, log, loop, size', handles⟩ :=
      ih good' (s := ⟨t.dev, _, _, s.queue, _⟩) rfl (same.trans size) rfl
    refine ⟨rounds + 1, d, memory, _, fun fuel => ?_, size', .more left (reports size result) handles⟩
    rw [← Nat.add_assoc, loop_round current (round_more good.1 result left), loop]
    simp only [List.append_assoc, List.cons_append, List.nil_append]

/-- A queue of good requests is drained. -/
theorem serve_queue (alg : Algorithm) (key : List Byte) (good : ∀ rq ∈ queue, rq.Good a) (d : RamdskDev)
    (memory : Nat → Nat → Byte) (log : List Event) (size : d.size = dev.size) :
    ∃ fuel final later, ramdskLoop a alg key fuel (Driver.fetch ⟨d, memory, none, queue, log⟩) = .ok final ∧
      final.log = log ++ later ∧ Serves dev queue later := by
  induction queue generalizing d memory log with
  | nil => exact ⟨1, _, [], rfl, by simp [Driver.fetch], .nil⟩
  | cons rq queue ih =>
    obtain ⟨rounds, d', memory', first, loop, size', handles⟩ :=
      handle_request alg key (s := ⟨d, memory, some rq, queue, log⟩) (good rq (by simp)) rfl size
    obtain ⟨fuel, final, later, rest, records, serves⟩ :=
      ih (fun other member => good other (by simp [member])) d' memory' (log ++ first) size'
    refine ⟨fuel + rounds, final, first ++ later, ?_, by simp [records], .cons handles serves⟩
    rw [show Driver.fetch ⟨d, memory, none, rq :: queue, log⟩ = ⟨d, memory, some rq, queue, log⟩ from rfl,
      loop, rest]

end Cs544.Ramdsk
