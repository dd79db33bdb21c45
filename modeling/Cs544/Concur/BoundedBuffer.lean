import Mathlib.Data.Multiset.AddSub
import Cs544.Library.Runs
import Cs544.Library.Tokens

/-! The bounded buffer of `concurrent1.c`.

One producer and one consumer share an array of slots without a lock: two semaphores
count the free slots and the items, and each thread scans the array for a slot it can
use while the other one fills or empties slots. A slot is free when its `b` is 0. Every
semaphore operation and every read or write of a field of a slot is a step.
-/

set_option autoImplicit false

namespace Cs544.Concur.BoundedBuffer

open Cs544.Library

abbrev Slot := Fin 32

structure Item where
  a : Int
  b : Int
  deriving DecidableEq, Repr

inductive Producer where
  -- `cnt < pro_no`.
  | test
  -- `sem_getvalue(&sem_p, &val)`, which only decides what is printed.
  | getvalue
  -- `sem_wait(&sem_p)`.
  | wait
  -- Read `buff[i].b` in the scan.
  | scan (i : Nat)
  -- `buff[i].a = rd2`.
  | writeA (i : Slot)
  -- `buff[i].b = rd3`, behind `rd2`.
  | writeB (i : Slot) (rd2 : Int)
  -- `sem_post(&sem_c)`.
  | post
  | done
  deriving DecidableEq, Repr

inductive Consumer where
  -- `cnt < com_no`.
  | test
  | getvalue
  -- `sem_wait(&sem_c)`.
  | wait
  -- Read `buff[i].b` in the scan.
  | scan (i : Nat)
  -- Read `buff[i].a` and print it.
  | readA (i : Slot)
  -- `sleep(buff[i].b)`.
  | sleepB (i : Slot) (a : Int)
  -- Read `buff[i].b` and print it.
  | readB (i : Slot) (a : Int)
  -- `buff[i].a = 0`.
  | clearA (i : Slot) (a b : Int)
  -- `buff[i].b = 0`.
  | clearB (i : Slot)
  -- `sem_post(&sem_p)`.
  | post
  | done
  deriving DecidableEq, Repr

/-- The shared variables and both threads with their counts. The last two fields record
what was produced and consumed, and no step reads them. -/
structure State where
  semP : Nat
  semC : Nat
  buff : Slot → Item
  proNo : Int
  proCnt : Int
  producer : Producer
  comNo : Int
  comCnt : Int
  consumer : Consumer
  produced : Multiset Item
  consumed : Multiset Item

/-- As `main` sets the semaphores up, with the two arguments of the program. -/
def initial (proNo comNo : Int) : State where
  semP := 32
  semC := 0
  buff _ := ⟨0, 0⟩
  proNo := proNo
  proCnt := 0
  producer := .test
  comNo := comNo
  comCnt := 0
  consumer := .test
  produced := 0
  consumed := 0

/-- One step of the producer. `rand` is what `rand()` returns, where the step calls it. -/
def producerStep (s : State) (rand : Nat) : Option State :=
  match s.producer with
  | .test => some { s with producer := if s.proCnt < s.proNo then .getvalue else .done }
  | .getvalue => some { s with producer := .wait }
  | .wait => if 0 < s.semP then some { s with semP := s.semP - 1, producer := .scan 0 } else none
  | .scan i =>
      if inside : i < 32 then
        some { s with producer := if (s.buff ⟨i, inside⟩).b = 0 then .writeA ⟨i, inside⟩ else .scan (i + 1) }
      else
        -- The scan may end without a free slot; the item is posted all the same.
        some { s with producer := .post }
  | .writeA i =>
      let rd2 : Int := rand % 10
      some { s with buff := Function.update s.buff i ⟨rd2, (s.buff i).b⟩, producer := .writeB i rd2 }
  | .writeB i rd2 =>
      let rd3 : Int := 2 + rand % 8
      some { s with
        buff := Function.update s.buff i ⟨(s.buff i).a, rd3⟩,
        produced := ⟨rd2, rd3⟩ ::ₘ s.produced
        producer := .post }
  | .post => some { s with semC := s.semC + 1, proCnt := s.proCnt + 1, producer := .test }
  | .done => none

/-- One step of the consumer. The item counts as consumed from the step on that begins
to clear its slot, with the two values that were printed. -/
def consumerStep (s : State) : Option State :=
  match s.consumer with
  | .test => some { s with consumer := if s.comCnt < s.comNo then .getvalue else .done }
  | .getvalue => some { s with consumer := .wait }
  | .wait => if 0 < s.semC then some { s with semC := s.semC - 1, consumer := .scan 0 } else none
  | .scan i =>
      if inside : i < 32 then
        some { s with consumer := if (s.buff ⟨i, inside⟩).b ≠ 0 then .readA ⟨i, inside⟩ else .scan (i + 1) }
      else
        some { s with consumer := .post }
  | .readA i => some { s with consumer := .sleepB i (s.buff i).a }
  | .sleepB i a => some { s with consumer := .readB i a }
  | .readB i a => some { s with consumer := .clearA i a (s.buff i).b }
  | .clearA i a b =>
      some { s with
        buff := Function.update s.buff i ⟨0, (s.buff i).b⟩,
        consumed := ⟨a, b⟩ ::ₘ s.consumed
        consumer := .clearB i }
  | .clearB i =>
      some { s with buff := Function.update s.buff i ⟨(s.buff i).a, 0⟩, consumer := .post }
  | .post => some { s with semP := s.semP + 1, comCnt := s.comCnt + 1, consumer := .test }
  | .done => none

inductive Thread where
  | producer (rand : Nat)
  | consumer
  deriving DecidableEq, Repr

/-- One step of a thread; there is none while it waits for a semaphore or is done. -/
def step (s : State) : Thread → Option State
  | .producer rand => producerStep s rand
  | .consumer => consumerStep s

def Step (s : State) (t : Thread) (s' : State) : Prop := step s t = some s'

/-! ## What is in the buffer -/

/-- The item in a slot: a slot whose `b` is set, unless the consumer has begun to clear it. -/
def content (s : State) (i : Slot) : Option Item :=
  if (s.buff i).b = 0 ∨ s.consumer = .clearB i then none else some (s.buff i)

def items (s : State) : Multiset Item := held (fun o : Option Item => o.elim 0 ({·})) (content s)

end Cs544.Concur.BoundedBuffer
