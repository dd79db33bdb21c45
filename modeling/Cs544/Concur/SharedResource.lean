import Cs544.Library.Permits
import Cs544.Library.Runs

/-! The shared resource of `concurrent5A.c`.

A customer that finds `resource_count` positive decrements it, uses the resource and
increments it again; one that finds it at zero waits for the mutex and tests again. The
handler polls the count and unlocks the mutex when all three units are back. The mutex is
unlocked by a thread that never locks it. Every lock, unlock, read and write of a shared
variable is a step; printing touches nothing shared.
-/

set_option autoImplicit false

namespace Cs544.Concur.SharedResource

open Cs544.Library

inductive Handler where
  -- Read `resource_count` in the condition.
  | test
  -- `pthread_mutex_unlock(&resource_mutex)`.
  | unlock
  deriving DecidableEq, Repr

inductive Customer where
  -- Read `resource_count` in the condition.
  | test
  -- The read and the write of `resource_count--`.
  | decRead
  | decWrite (count : Int)
  -- The sleep during which the resource is used.
  | use
  -- The read and the write of `resource_count++`.
  | incRead
  | incWrite (count : Int)
  -- `pthread_mutex_lock(&resource_mutex)`, after which the loop starts over.
  | lock
  | done
  deriving DecidableEq, Repr

structure State (Id : Type) where
  resourceCount : Int
  -- `true` is locked.
  resourceMutex : Bool
  handler : Handler
  customer : Id → Customer

def initial (Id : Type) : State Id where
  resourceCount := 3
  resourceMutex := false
  handler := .test
  customer _ := .test

inductive Thread (Id : Type) where
  | handler
  | customer (c : Id)
  deriving DecidableEq, Repr

section
variable {Id : Type}

def handlerStep (s : State Id) : State Id :=
  match s.handler with
  | .test => { s with handler := if s.resourceCount = 3 then .unlock else .test }
  | .unlock => { s with resourceMutex := false, handler := .test }

variable [DecidableEq Id]

def State.goto (s : State Id) (c : Id) (next : Customer) : State Id :=
  { s with customer := Function.update s.customer c next }

def customerStep (s : State Id) (c : Id) : Option (State Id) :=
  match s.customer c with
  | .test => some (s.goto c (if 0 < s.resourceCount then .decRead else .lock))
  | .decRead => some (s.goto c (.decWrite s.resourceCount))
  | .decWrite count => some { s.goto c .use with resourceCount := count - 1 }
  | .use => some (s.goto c .incRead)
  | .incRead => some (s.goto c (.incWrite s.resourceCount))
  | .incWrite count => some { s.goto c .done with resourceCount := count + 1 }
  | .lock => if s.resourceMutex then none else some { s.goto c .test with resourceMutex := true }
  | .done => none

/-- One step of a thread; there is none while it waits for the mutex or is done. -/
def step (s : State Id) : Thread Id → Option (State Id)
  | .handler => some (handlerStep s)
  | .customer c => customerStep s c

def Step (s : State Id) (t : Thread Id) (s' : State Id) : Prop := step s t = some s'

end

/-! ## Who uses the resource -/

/-- A customer between its decrement and its increment of `resource_count`. -/
def Customer.using : Customer → Nat
  | use | incRead | incWrite _ => 1
  | _ => 0

variable {Id : Type} [Fintype Id] {s s' : State Id} {c : Id}

/-- At most three customers use the resource, and the count is what they leave of it. -/
structure Shared (s : State Id) : Prop where
  atMostThree : held Customer.using s.customer ≤ 3
  nonneg : 0 ≤ s.resourceCount
  le : s.resourceCount ≤ 3
  returned : (∀ c, (s.customer c).using = 0) → s.resourceCount = 3

/-- A write finds in `resource_count` what its customer read, and a decrement finds a
unit left. -/
def Customer.Fresh (resourceCount : Int) : Customer → Prop
  | decWrite count => resourceCount = count ∧ 0 < count
  | incWrite count => resourceCount = count
  | _ => True

instance (resourceCount : Int) : DecidablePred (Customer.Fresh resourceCount)
  | .decWrite count => inferInstanceAs (Decidable (resourceCount = count ∧ 0 < count))
  | .incWrite count => inferInstanceAs (Decidable (resourceCount = count))
  | .test | .decRead | .use | .incRead | .lock | .done => .isTrue trivial

def Fresh (s : State Id) : Thread Id → Prop
  | .handler => True
  | .customer c => (s.customer c).Fresh s.resourceCount

instance (s : State Id) : DecidablePred (Fresh s)
  | .handler => .isTrue trivial
  | .customer c => inferInstanceAs (Decidable ((s.customer c).Fresh s.resourceCount))

def FreshStep [DecidableEq Id] (s : State Id) (t : Thread Id) (s' : State Id) : Prop := Fresh s t ∧ Step s t s'

def UnitsBalanced (s : State Id) : Prop := Balanced 3 Customer.using s.resourceCount s.customer

namespace UnitsBalanced

theorem initial : UnitsBalanced (initial Id) := Balanced.all_free (by decide) fun _ => rfl

theorem shared (balanced : UnitsBalanced s) : Shared s where
  atMostThree := by exact_mod_cast balanced.held_le
  nonneg := balanced.nonneg
  le := balanced.free_le
  returned nobody := balanced.free_eq_total nobody

theorem handler (balanced : UnitsBalanced s) : UnitsBalanced (handlerStep s) := by
  unfold handlerStep
  cases s.handler <;> exact balanced

variable [DecidableEq Id]

theorem customer (balanced : UnitsBalanced s) (fresh : Fresh s (.customer c))
    (edge : customerStep s c = some s') : UnitsBalanced s' := by
  unfold customerStep at edge
  rw [Fresh] at fresh
  cases at' : s.customer c with
  | test =>
    simp only [at', Option.some.injEq] at edge
    cases edge
    apply Balanced.keep balanced
    rw [at']
    split_ifs <;> rfl
  | decRead | use | incRead =>
    simp only [at', Option.some.injEq] at edge
    cases edge
    exact Balanced.keep balanced (by rw [at']; rfl)
  | decWrite count =>
    simp only [at', Option.some.injEq] at edge
    cases edge
    rw [at'] at fresh
    obtain ⟨rfl, positive⟩ := fresh
    exact Balanced.take balanced positive (by rw [at']; rfl)
  | incWrite count =>
    simp only [at', Option.some.injEq] at edge
    cases edge
    rw [at'] at fresh
    cases fresh
    exact Balanced.give balanced (by rw [at']; rfl)
  | lock =>
    simp only [at', Option.ite_none_left_eq_some, Option.some.injEq] at edge
    obtain ⟨-, rfl⟩ := edge
    exact Balanced.keep balanced (by rw [at']; rfl)
  | done =>
    simp only [at'] at edge
    cases edge

theorem preserved (balanced : UnitsBalanced s) {t : Thread Id} (edge : FreshStep s t s') : UnitsBalanced s' := by
  obtain ⟨fresh, edge⟩ := edge
  cases t with
  | handler =>
    cases edge
    exact balanced.handler
  | customer c => exact balanced.customer fresh edge

end UnitsBalanced

/-! ## Whole runs -/

/-- In every run in which the writes of `resource_count` are fresh, at most three
customers use the resource at a time. -/
theorem resource_shared (Id : Type) [Fintype Id] [DecidableEq Id] (threads : List (Thread Id)) (s : State Id)
    (run : Run FreshStep (initial Id) threads s) : Shared s := by
  have balanced : UnitsBalanced s :=
    run.invariant UnitsBalanced (fun balanced edge => balanced.preserved edge) UnitsBalanced.initial
  exact balanced.shared

/-- Three customers use the resource, and a fourth one finds nothing left. -/
theorem resource_shared_four_customers :
    ∃ s : State (Fin 4), Run FreshStep (initial (Fin 4))
      (List.replicate 3 (Thread.customer 0) ++ List.replicate 3 (Thread.customer 1) ++
        List.replicate 3 (Thread.customer 2) ++ [Thread.customer 3, .handler]) s ∧
      s.resourceCount = 0 ∧ s.customer 3 = .lock ∧ Shared s := by
  have result : (execute (fun s t => if Fresh s t then step s t else none) (initial (Fin 4))
      (List.replicate 3 (Thread.customer 0) ++ List.replicate 3 (Thread.customer 1) ++
        List.replicate 3 (Thread.customer 2) ++ [Thread.customer 3, .handler])).map
      (fun s => (s.resourceCount, s.customer 3)) = some (0, .lock) := by decide +kernel
  obtain ⟨s, result, reached⟩ := Option.map_eq_some_iff.mp result
  obtain ⟨count, waits⟩ := Prod.mk.inj reached
  have run : Run FreshStep (initial (Fin 4)) _ s :=
    (run_of_execute result).mono fun edge => Option.ite_none_right_eq_some.mp edge
  exact ⟨s, run, count, waits, resource_shared (Fin 4) _ s run⟩

/-- Four customers test the count before any of them decrements it, and all are let in. -/
theorem resource_overused :
    ¬ ∀ (Id : Type) [Fintype Id] [DecidableEq Id] (threads : List (Thread Id)) (s : State Id),
      Run Step (initial Id) threads s → Shared s := by
  intro shared
  have result : (execute step (initial (Fin 4)) ([Thread.customer 0, .customer 1, .customer 2, .customer 3] ++
      List.replicate 2 (Thread.customer 0) ++ List.replicate 2 (Thread.customer 1) ++
      List.replicate 2 (Thread.customer 2) ++ List.replicate 2 (Thread.customer 3))).map State.resourceCount =
      some (-1) := by decide +kernel
  obtain ⟨s, result, count⟩ := Option.map_eq_some_iff.mp result
  have nonneg := (shared (Fin 4) _ s (run_of_execute result)).nonneg
  omega

end Cs544.Concur.SharedResource
