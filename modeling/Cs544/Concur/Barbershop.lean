import Cs544.Library.Runs
import Cs544.Library.Permits

/-! The barbershop of `barbershop.c`.

A customer that finds a waiting chair takes the barber chair by locking its mutex and
calls the barber by unlocking the other one; the barber locks that one, cuts, and
unlocks the chair. Both mutexes are locked by one thread and unlocked by another, as
binary semaphores. Every lock, unlock, read and write of a shared variable is a step;
printing touches nothing shared.
-/

set_option autoImplicit false

namespace Cs544.Concur.Barbershop

open Cs544.Library

inductive Barber where
  -- `pthread_mutex_lock(&hair_cut_mutex)`.
  | lockHairCut
  -- The sleep, at whose end the haircut is finished.
  | cut
  -- `pthread_mutex_unlock(&barber_chair_mutex)`.
  | unlockChair
  deriving DecidableEq, Repr

inductive Customer where
  -- Read `waiting_chair_count` in the condition.
  | test
  -- The read and the write of `waiting_chair_count--`.
  | decRead
  | decWrite (count : Int)
  -- `pthread_mutex_lock(&barber_chair_mutex)`.
  | lockChair
  -- The read and the write of `waiting_chair_count++`.
  | incRead
  | incWrite (count : Int)
  -- `pthread_mutex_unlock(&hair_cut_mutex)`.
  | unlockHairCut
  | done
  deriving DecidableEq, Repr

/-- The shared variables, the two mutexes (`true` is locked) and every thread's next
step. The last three fields count what has happened, and no step reads them. -/
structure State (Id : Type) where
  waitingChairCount : Int
  chairMutex : Bool
  hairCutMutex : Bool
  barber : Barber
  customer : Id → Customer
  -- Customers that took the barber chair.
  took : Nat
  -- Haircuts finished.
  finished : Nat
  -- Customers that took the barber chair since it was last released.
  sinceRelease : Nat

/-- As `main` sets the mutexes up: it locks `hair_cut_mutex` itself. -/
def initial (Id : Type) (numWaitingChairs : Int) : State Id where
  waitingChairCount := numWaitingChairs
  chairMutex := false
  hairCutMutex := true
  barber := .lockHairCut
  customer _ := .test
  took := 0
  finished := 0
  sinceRelease := 0

inductive Thread (Id : Type) where
  | barber
  | customer (c : Id)
  deriving DecidableEq, Repr

section
variable {Id : Type}

def barberStep (s : State Id) : Option (State Id) :=
  match s.barber with
  | .lockHairCut => if s.hairCutMutex then none else some { s with hairCutMutex := true, barber := .cut }
  | .cut => some { s with finished := s.finished + 1, barber := .unlockChair }
  | .unlockChair => some { s with chairMutex := false, sinceRelease := 0, barber := .lockHairCut }

variable [DecidableEq Id]

def State.goto (s : State Id) (c : Id) (next : Customer) : State Id :=
  { s with customer := Function.update s.customer c next }

def customerStep (s : State Id) (c : Id) : Option (State Id) :=
  match s.customer c with
  | .test => some (s.goto c (if 0 < s.waitingChairCount then .decRead else .done))
  | .decRead => some (s.goto c (.decWrite s.waitingChairCount))
  | .decWrite count => some { s.goto c .lockChair with waitingChairCount := count - 1 }
  | .lockChair =>
      if s.chairMutex then none
      else some { s.goto c .incRead with
        chairMutex := true, took := s.took + 1, sinceRelease := s.sinceRelease + 1 }
  | .incRead => some (s.goto c (.incWrite s.waitingChairCount))
  | .incWrite count => some { s.goto c .unlockHairCut with waitingChairCount := count + 1 }
  | .unlockHairCut => some { s.goto c .done with hairCutMutex := false }
  | .done => none

/-- One step of a thread; there is none while it waits for a mutex or is done. -/
def step (s : State Id) : Thread Id → Option (State Id)
  | .barber => barberStep s
  | .customer c => customerStep s c

def Step (s : State Id) (t : Thread Id) (s' : State Id) : Prop := step s t = some s'

end

/-! ## The one token -/

/-- A customer that took the chair and has not called the barber yet. -/
def Customer.seated : Customer → Nat
  | incRead | incWrite _ | unlockHairCut => 1
  | _ => 0

/-- The barber has been called and has not released the chair yet. -/
def Barber.busy : Barber → Nat
  | lockHairCut => 0
  | cut | unlockChair => 1

/-- The haircut the barber has been called for is not finished. -/
def Barber.cutting : Barber → Nat
  | cut => 1
  | lockHairCut | unlockChair => 0

variable {Id : Type} [Fintype Id] {s s' : State Id} {c : Id} {next : Customer}

/-- Customers and calls that still have to get to the barber. -/
def waiting (s : State Id) : Nat := (!s.hairCutMutex).toNat + held Customer.seated s.customer

/-- The free chair, the customer in it, the call and the barber's work are one token in
four places, and the counters differ by where it is. -/
structure OneToken (s : State Id) : Prop where
  token : (!s.chairMutex).toNat + waiting s + s.barber.busy = 1
  counted : s.took = s.finished + waiting s + s.barber.cutting
  released : s.sinceRelease = waiting s + s.barber.busy

theorem oneToken_initial (numWaitingChairs : Int) : OneToken (initial Id numWaitingChairs) := by
  have nobody : held Customer.seated (initial Id numWaitingChairs).customer = 0 :=
    held_eq_zero.mpr fun _ => rfl
  constructor <;> simp [waiting, nobody] <;> rfl

namespace OneToken

theorem barber (one : OneToken s) (edge : barberStep s = some s') : OneToken s' := by
  obtain ⟨token, counted, released⟩ := one
  unfold barberStep at edge
  cases at' : s.barber with
  | lockHairCut =>
    simp only [at', Option.ite_none_left_eq_some, Option.some.injEq, Bool.not_eq_true] at edge
    obtain ⟨called, rfl⟩ := edge
    -- The call is taken up, and becomes the barber's work.
    simp only [waiting, called, at', Barber.busy, Barber.cutting, Bool.not_false, Bool.toNat_true] at *
    refine ⟨?_, ?_, ?_⟩ <;> simp only [waiting, Barber.busy, Barber.cutting, Bool.not_true, Bool.toNat_false] <;>
      omega
  | cut =>
    simp only [at', Option.some.injEq] at edge
    cases edge
    simp only [waiting, at', Barber.busy, Barber.cutting] at *
    refine ⟨?_, ?_, ?_⟩ <;> simp only [waiting, Barber.busy, Barber.cutting] <;> omega
  | unlockChair =>
    simp only [at', Option.some.injEq] at edge
    cases edge
    simp only [waiting, at', Barber.busy, Barber.cutting] at *
    refine ⟨?_, ?_, ?_⟩ <;> simp only [waiting, Barber.busy, Barber.cutting, Bool.not_false, Bool.toNat_true] <;>
      omega

variable [DecidableEq Id]

theorem hairCut_locked (one : OneToken s) (at' : s.customer c = .unlockHairCut) : s.hairCutMutex = true := by
  have token := one.token
  have moved := held_update Customer.seated s.customer c .done
  rw [at'] at moved
  cases locked : s.hairCutMutex with
  | true => rfl
  | false =>
    simp only [waiting, locked, Bool.not_false, Bool.toNat_true, Customer.seated] at token moved
    omega

omit [DecidableEq Id] in
theorem chair_locked (one : OneToken s) (at' : s.barber = .unlockChair) : s.chairMutex = true := by
  have token := one.token
  cases locked : s.chairMutex with
  | true => rfl
  | false =>
    simp only [locked, at', Bool.not_false, Bool.toNat_true, Barber.busy] at token
    omega

/-- A customer that neither takes the chair nor calls the barber. -/
theorem walks (one : OneToken s) (same : next.seated = (s.customer c).seated) (count : Int) :
    OneToken { s.goto c next with waitingChairCount := count } := by
  have seated : held Customer.seated (Function.update s.customer c next) = held Customer.seated s.customer :=
    held_update_eq same
  obtain ⟨token, counted, released⟩ := one
  constructor <;> simpa [waiting, State.goto, seated]

theorem customer (one : OneToken s) (edge : customerStep s c = some s') : OneToken s' := by
  have moved := held_update Customer.seated s.customer c
  unfold customerStep at edge
  cases at' : s.customer c with
  | test =>
    simp only [at', Option.some.injEq] at edge
    cases edge
    apply one.walks _ s.waitingChairCount
    rw [at']
    split_ifs <;> rfl
  | decRead =>
    simp only [at', Option.some.injEq] at edge
    cases edge
    exact one.walks (by rw [at']; rfl) s.waitingChairCount
  | decWrite count =>
    simp only [at', Option.some.injEq] at edge
    cases edge
    exact one.walks (by rw [at']; rfl) _
  | lockChair =>
    simp only [at', Option.ite_none_left_eq_some, Option.some.injEq, Bool.not_eq_true] at edge
    obtain ⟨free, rfl⟩ := edge
    have taken := moved .incRead
    obtain ⟨token, counted, released⟩ := one
    simp only [waiting, free, at', Customer.seated, Bool.not_false, Bool.toNat_true] at *
    refine ⟨?_, ?_, ?_⟩ <;> simp only [waiting, State.goto, Bool.not_true, Bool.toNat_false] <;> omega
  | incRead =>
    simp only [at', Option.some.injEq] at edge
    cases edge
    exact one.walks (by rw [at']; rfl) s.waitingChairCount
  | incWrite count =>
    simp only [at', Option.some.injEq] at edge
    cases edge
    exact one.walks (by rw [at']; rfl) _
  | unlockHairCut =>
    simp only [at', Option.some.injEq] at edge
    cases edge
    have left := moved .done
    have locked := one.hairCut_locked at'
    obtain ⟨token, counted, released⟩ := one
    simp only [waiting, locked, at', Customer.seated, Bool.not_true, Bool.toNat_false] at *
    refine ⟨?_, ?_, ?_⟩ <;> simp only [waiting, State.goto, Bool.not_false, Bool.toNat_true] <;> omega
  | done =>
    simp only [at'] at edge
    cases edge

theorem preserved (one : OneToken s) {t : Thread Id} (edge : Step s t s') : OneToken s' := by
  cases t with
  | barber => exact one.barber edge
  | customer c => exact one.customer edge

end OneToken

/-! ## Whole days -/

/-- One haircut for every seated customer. In every interleaving of the barber and any
number of customers, whoever is about to unlock one of the mutexes finds it locked, at
most one customer has taken the chair since it was last released, and the customers
that took the chair are the haircuts finished or one more. -/
theorem barbershop_one_haircut (Id : Type) [Fintype Id] [DecidableEq Id] (numWaitingChairs : Int)
    (threads : List (Thread Id)) (s : State Id) (run : Run Step (initial Id numWaitingChairs) threads s) :
    (∀ c, s.customer c = .unlockHairCut → s.hairCutMutex = true) ∧
    (s.barber = .unlockChair → s.chairMutex = true) ∧
    s.sinceRelease ≤ 1 ∧ s.finished ≤ s.took ∧ s.took ≤ s.finished + 1 := by
  have one : OneToken s :=
    run.invariant OneToken (fun one edge => one.preserved edge) (oneToken_initial numWaitingChairs)
  have token := one.token
  have counted := one.counted
  have released := one.released
  have cutting : s.barber.cutting ≤ s.barber.busy := by cases s.barber <;> decide
  refine ⟨fun c => one.hairCut_locked, one.chair_locked, ?_, ?_, ?_⟩ <;> omega

/-- Two customers for one chair: the second one sits down as soon as the first is done. -/
theorem barbershop_one_haircut_two_customers :
    ∃ s : State (Fin 2), Run Step (initial (Fin 2) 2)
      (List.replicate 7 (.customer 0) ++ List.replicate 3 .barber ++ List.replicate 4 (.customer 1)) s ∧
      s.took = 2 ∧ s.finished = 1 ∧ s.sinceRelease ≤ 1 := by
  have result : (execute step (initial (Fin 2) 2) (List.replicate 7 (.customer 0) ++
      List.replicate 3 .barber ++ List.replicate 4 (.customer 1))).map (fun s => (s.took, s.finished)) =
      some (2, 1) := by decide +kernel
  obtain ⟨s, result, counters⟩ := Option.map_eq_some_iff.mp result
  have run := run_of_execute result
  obtain ⟨took, finished⟩ := Prod.mk.inj counters
  exact ⟨s, run, took, finished, (barbershop_one_haircut (Fin 2) 2 _ s run).2.2.1⟩

/-! ## The waiting chairs

Nothing protects `waiting_chair_count`. A customer may test it, and write to it, long
after the read the test or the write rests on. -/

/-- A customer between its decrement and its increment of `waiting_chair_count`. -/
def Customer.inWaitingChair : Customer → Nat
  | lockChair | incRead | incWrite _ => 1
  | _ => 0

/-- Between the read and the write of an update. -/
def Customer.updating : Customer → Bool
  | decWrite _ | incWrite _ => true
  | _ => false

/-- The count stays within the chairs there are, and while no update is halfway the
chairs are free or sat in. -/
structure ChairsBooked (numWaitingChairs : Int) (s : State Id) : Prop where
  nonneg : 0 ≤ s.waitingChairCount
  le : s.waitingChairCount ≤ numWaitingChairs
  balance : (∀ c, (s.customer c).updating = false) →
    s.waitingChairCount + held Customer.inWaitingChair s.customer = numWaitingChairs

/-- A write finds in `waiting_chair_count` what its customer read, and a decrement finds
a free chair. -/
def Customer.Fresh (waitingChairCount : Int) : Customer → Prop
  | decWrite count => waitingChairCount = count ∧ 0 < count
  | incWrite count => waitingChairCount = count
  | _ => True

instance (waitingChairCount : Int) : DecidablePred (Customer.Fresh waitingChairCount)
  | .decWrite count => inferInstanceAs (Decidable (waitingChairCount = count ∧ 0 < count))
  | .incWrite count => inferInstanceAs (Decidable (waitingChairCount = count))
  | .test | .decRead | .lockChair | .incRead | .unlockHairCut | .done => .isTrue trivial

def Fresh (s : State Id) : Thread Id → Prop
  | .barber => True
  | .customer c => (s.customer c).Fresh s.waitingChairCount

instance (s : State Id) : DecidablePred (Fresh s)
  | .barber => .isTrue trivial
  | .customer c => inferInstanceAs (Decidable ((s.customer c).Fresh s.waitingChairCount))

def FreshStep [DecidableEq Id] (s : State Id) (t : Thread Id) (s' : State Id) : Prop := Fresh s t ∧ Step s t s'

def ChairsBalanced (numWaitingChairs : Int) (s : State Id) : Prop :=
  Balanced numWaitingChairs Customer.inWaitingChair s.waitingChairCount s.customer

namespace ChairsBalanced

variable {numWaitingChairs : Int}

theorem initial (nonneg : 0 ≤ numWaitingChairs) :
    ChairsBalanced numWaitingChairs (initial Id numWaitingChairs) :=
  Balanced.all_free nonneg fun _ => rfl

theorem booked (balanced : ChairsBalanced numWaitingChairs s) : ChairsBooked numWaitingChairs s where
  nonneg := balanced.nonneg
  le := balanced.free_le
  balance _ := balanced.balance

theorem barber (balanced : ChairsBalanced numWaitingChairs s) (edge : barberStep s = some s') :
    ChairsBalanced numWaitingChairs s' := by
  unfold barberStep at edge
  cases at' : s.barber with
  | lockHairCut =>
    simp only [at', Option.ite_none_left_eq_some, Option.some.injEq] at edge
    obtain ⟨-, rfl⟩ := edge
    exact balanced
  | cut | unlockChair =>
    simp only [at', Option.some.injEq] at edge
    cases edge
    exact balanced

variable [DecidableEq Id]

theorem customer (balanced : ChairsBalanced numWaitingChairs s) (fresh : Fresh s (.customer c))
    (edge : customerStep s c = some s') : ChairsBalanced numWaitingChairs s' := by
  unfold customerStep at edge
  rw [Fresh] at fresh
  cases at' : s.customer c with
  | test =>
    simp only [at', Option.some.injEq] at edge
    cases edge
    apply Balanced.keep balanced
    rw [at']
    split_ifs <;> rfl
  | decRead | incRead | unlockHairCut =>
    simp only [at', Option.some.injEq] at edge
    cases edge
    exact Balanced.keep balanced (by rw [at']; rfl)
  | decWrite count =>
    simp only [at', Option.some.injEq] at edge
    cases edge
    rw [at'] at fresh
    obtain ⟨rfl, positive⟩ := fresh
    exact Balanced.take balanced positive (by rw [at']; rfl)
  | lockChair =>
    simp only [at', Option.ite_none_left_eq_some, Option.some.injEq] at edge
    obtain ⟨-, rfl⟩ := edge
    exact Balanced.keep balanced (by rw [at']; rfl)
  | incWrite count =>
    simp only [at', Option.some.injEq] at edge
    cases edge
    rw [at'] at fresh
    cases fresh
    exact Balanced.give balanced (by rw [at']; rfl)
  | done =>
    simp only [at'] at edge
    cases edge

theorem preserved (balanced : ChairsBalanced numWaitingChairs s) {t : Thread Id} (edge : FreshStep s t s') :
    ChairsBalanced numWaitingChairs s' := by
  cases t with
  | barber => exact balanced.barber edge.2
  | customer c => exact balanced.customer edge.1 edge.2

end ChairsBalanced

/-- Waiting chairs are never over-booked in a run in which every write of
`waiting_chair_count` is fresh. -/
theorem waiting_chairs_booked (Id : Type) [Fintype Id] [DecidableEq Id] (numWaitingChairs : Int)
    (nonneg : 0 ≤ numWaitingChairs) (threads : List (Thread Id)) (s : State Id)
    (run : Run FreshStep (initial Id numWaitingChairs) threads s) : ChairsBooked numWaitingChairs s := by
  have balanced : ChairsBalanced numWaitingChairs s :=
    run.invariant (ChairsBalanced numWaitingChairs) (fun balanced edge => balanced.preserved edge)
      (ChairsBalanced.initial nonneg)
  exact balanced.booked

/-- Two customers, one after the other, in the only chair. -/
theorem waiting_chairs_booked_two_customers :
    ∃ s : State (Fin 2), Run FreshStep (initial (Fin 2) 1)
      (List.replicate 7 (Thread.customer 0) ++ List.replicate 3 Thread.barber ++
        List.replicate 3 (Thread.customer 1)) s ∧
      s.waitingChairCount = 0 ∧ ChairsBooked 1 s := by
  have result : (execute (fun s t => if Fresh s t then step s t else none) (initial (Fin 2) 1)
      (List.replicate 7 (Thread.customer 0) ++ List.replicate 3 Thread.barber ++
        List.replicate 3 (Thread.customer 1))).map
      State.waitingChairCount = some 0 := by decide +kernel
  obtain ⟨s, result, count⟩ := Option.map_eq_some_iff.mp result
  have run : Run FreshStep (initial (Fin 2) 1) _ s :=
    (run_of_execute result).mono fun edge => (Option.ite_none_right_eq_some.mp edge)
  exact ⟨s, run, count, waiting_chairs_booked (Fin 2) 1 (by decide) _ s run⟩

/-- Two customers test the count of one chair before either of them decrements it. -/
theorem waiting_chairs_overbooked :
    ¬ ∀ (Id : Type) [Fintype Id] [DecidableEq Id] (numWaitingChairs : Int), 0 ≤ numWaitingChairs →
      ∀ (threads : List (Thread Id)) (s : State Id), Run Step (initial Id numWaitingChairs) threads s →
        ChairsBooked numWaitingChairs s := by
  intro booked
  have result : (execute step (initial (Fin 2) 1) [.customer 0, .customer 1, .customer 0, .customer 0,
      .customer 1, .customer 1]).map State.waitingChairCount = some (-1) := by decide +kernel
  obtain ⟨s, result, count⟩ := Option.map_eq_some_iff.mp result
  have nonneg := (booked (Fin 2) 1 (by decide) _ s (run_of_execute result)).nonneg
  omega

end Cs544.Concur.Barbershop
