import Mathlib.Data.Finset.Basic
import Cs544.Library.Chain
import Cs544.Library.Runs

/-! The searchers, inserters and deleters of `3way.c`.

Any number of threads share a singly linked list of turkey dinners and its count.
Every lock operation and every read or write of `turkey_dinners`, of `dinner_count`
or of a `next_dinner` field is a step of its own; a thread between two steps is where
its program counter says, with the local variables it still needs. A thread that
follows NULL or reads a node that was freed has crashed.
-/

set_option autoImplicit false

namespace Cs544.Concur.Dinners

open Cs544.Library

/-- The address of a `struct TurkeyDinner`. -/
abbrev Address := Nat

inductive Pc where
  -- searcher
  | rdlock
  | searchTest
  | searchPick
  -- `find_dinner`: read `turkey_dinners`.
  | findStart (index : Int)
  -- The loop of `find_dinner`.
  | find (index : Int) (count : Nat) (curr : Option Address)
  | found (curr : Option Address)
  | rdunlock
  -- inserter
  | malloc
  | clear (mine : Address)
  | lockInsert (mine : Address)
  -- `find_last_dinner(turkey_dinners)`.
  | findFirst (mine : Address)
  -- `while(my_last->next_dinner != NULL)`.
  | lastTest (mine last : Address)
  -- `my_last = my_last->next_dinner`, which reads the field again.
  | lastNext (mine last : Address)
  | linkFirst (mine : Address)
  | linkLast (mine last : Address)
  -- `dinner_count++`.
  | addRead
  | addWrite (read : Int)
  | insertPrint
  | unlockInsert
  -- deleter
  | wrlock
  | lockDelete
  | deleteTest
  | lockDeleters
  | deletePick
  -- `cancel_dinner`: read `turkey_dinners`.
  | cancelStart (index : Int)
  -- The loop of `cancel_dinner`.
  | cancel (index : Int) (count : Nat) (prev curr : Option Address)
  -- Read the link of the node to remove.
  | snip (prev curr : Option Address)
  | unlink (prev : Option Address) (curr : Address) (link : Option Address)
  -- `dinner_count--`.
  | subRead (curr : Address)
  | subWrite (curr : Address) (read : Int)
  | free (curr : Address)
  | deletePrint
  | unlockDeleters
  | unlockDelete
  | wrunlock
  | crashed
  deriving DecidableEq, Repr

/-- The shared variables, the heap, the locks and the threads. `live` marks the
addresses that are allocated; locks know the threads that hold them. -/
structure State (Thread : Type) where
  turkeyDinners : Option Address
  dinnerCount : Int
  next : Address → Option Address
  live : Address → Bool
  readers : Finset Thread
  writer : Option Thread
  insertersLock : Option Thread
  deletersLock : Option Thread
  pc : Thread → Pc

/-- What a step cannot know: the address `malloc` returns, what the memory there
holds, and the result of `random_range`. -/
structure Oracle where
  address : Address
  junk : Option Address
  index : Int

variable {Thread : Type} [DecidableEq Thread]

/-- The value of `random_range(1, count)` is in its range if there is one. -/
def InRange (count index : Int) : Prop := 1 ≤ count → 1 ≤ index ∧ index ≤ count

instance (count index : Int) : Decidable (InRange count index) := inferInstanceAs (Decidable (_ → _))

def State.goto (s : State Thread) (t : Thread) (pc : Pc) : State Thread :=
  { s with pc := Function.update s.pc t pc }

/-- Read the `next_dinner` field behind a pointer and go on with what it holds. -/
def State.follow (s : State Thread) (t : Thread) (pointer : Option Address)
    (goOn : Address → Option Address → Pc) : State Thread :=
  match pointer with
  | none => s.goto t .crashed
  | some p => if s.live p then s.goto t (goOn p (s.next p)) else s.goto t .crashed

def State.store (s : State Thread) (t : Thread) (p : Address) (link : Option Address) (pc : Pc) :
    State Thread :=
  if s.live p then { s.goto t pc with next := Function.update s.next p link } else s.goto t .crashed

/-- One step of thread `t`; there is none while the thread is blocked. -/
def step (s : State Thread) (t : Thread) (oracle : Oracle) : Option (State Thread) :=
  match s.pc t with
  -- searcher
  | .rdlock =>
      if s.writer = none then some { s.goto t .searchTest with readers := insert t s.readers } else none
  | .searchTest => some (s.goto t (if s.dinnerCount > 0 then .searchPick else .rdunlock))
  | .searchPick =>
      if InRange s.dinnerCount oracle.index then some (s.goto t (.findStart oracle.index)) else none
  | .findStart index => some (s.goto t (.find index 1 s.turkeyDinners))
  | .find index count curr =>
      if count = index then some (s.goto t (.found curr))
      else some (s.follow t curr fun _ link => .find index (count + 1) link)
  | .found _ => some (s.goto t .rdunlock)
  | .rdunlock => some { s.goto t .rdlock with readers := s.readers.erase t }
  -- inserter
  | .malloc =>
      if s.live oracle.address then none
      else some { s.goto t (.clear oracle.address) with
        live := Function.update s.live oracle.address true
        next := Function.update s.next oracle.address oracle.junk }
  | .clear mine => some (s.store t mine none (.lockInsert mine))
  | .lockInsert mine =>
      if s.insertersLock = none then some { s.goto t (.findFirst mine) with insertersLock := some t }
      else none
  | .findFirst mine =>
      match s.turkeyDinners with
      | none => some (s.goto t (.linkFirst mine))
      | some first => some (s.goto t (.lastTest mine first))
  | .lastTest mine last =>
      some (s.follow t (some last) fun _ link =>
        if link = none then .linkLast mine last else .lastNext mine last)
  | .lastNext mine last =>
      some (s.follow t (some last) fun _ link =>
        match link with
        | none => .crashed
        | some next => .lastTest mine next)
  | .linkFirst mine => some { s.goto t .addRead with turkeyDinners := some mine }
  | .linkLast mine last => some (s.store t last (some mine) .addRead)
  | .addRead => some (s.goto t (.addWrite s.dinnerCount))
  | .addWrite read => some { s.goto t .insertPrint with dinnerCount := read + 1 }
  | .insertPrint => some (s.goto t .unlockInsert)
  | .unlockInsert => some { s.goto t .malloc with insertersLock := none }
  -- deleter
  | .wrlock =>
      if s.writer = none ∧ s.readers = ∅ then some { s.goto t .lockDelete with writer := some t } else none
  | .lockDelete =>
      if s.insertersLock = none then some { s.goto t .deleteTest with insertersLock := some t } else none
  | .deleteTest => some (s.goto t (if s.dinnerCount > 0 then .lockDeleters else .unlockDelete))
  | .lockDeleters =>
      if s.deletersLock = none then some { s.goto t .deletePick with deletersLock := some t } else none
  | .deletePick =>
      if InRange s.dinnerCount oracle.index then some (s.goto t (.cancelStart oracle.index)) else none
  | .cancelStart index => some (s.goto t (.cancel index 1 none s.turkeyDinners))
  | .cancel index count prev curr =>
      if count = index then some (s.goto t (.snip prev curr))
      else some (s.follow t curr fun p link => .cancel index (count + 1) (some p) link)
  | .snip prev curr => some (s.follow t curr fun p link => .unlink prev p link)
  | .unlink none curr link => some { s.goto t (.subRead curr) with turkeyDinners := link }
  | .unlink (some prev) curr link => some (s.store t prev link (.subRead curr))
  | .subRead curr => some (s.goto t (.subWrite curr s.dinnerCount))
  | .subWrite curr read => some { s.goto t (.free curr) with dinnerCount := read - 1 }
  | .free curr =>
      if s.live curr then some { s.goto t .deletePrint with live := Function.update s.live curr false }
      else some (s.goto t .crashed)
  | .deletePrint => some (s.goto t .unlockDeleters)
  | .unlockDeleters => some { s.goto t .unlockDelete with deletersLock := none }
  | .unlockDelete => some { s.goto t .wrunlock with insertersLock := none }
  | .wrunlock => some { s.goto t .wrlock with writer := none }
  | .crashed => none

/-- As `main` leaves the shared state, every thread at the start of its loop. -/
structure State.Initial (s : State Thread) : Prop where
  turkeyDinners : s.turkeyDinners = none
  dinnerCount : s.dinnerCount = 0
  readers : s.readers = ∅
  writer : s.writer = none
  insertersLock : s.insertersLock = none
  deletersLock : s.deletersLock = none
  pc : ∀ t, s.pc t = .rdlock ∨ s.pc t = .malloc ∨ s.pc t = .wrlock

def Step (s : State Thread) (label : Thread × Oracle) (s' : State Thread) : Prop :=
  step s label.1 label.2 = some s'

/-! ## Where a thread is -/

namespace Pc

def reading : Pc → Bool
  | searchTest | searchPick | findStart _ | find _ _ _ | found _ | rdunlock => true
  | _ => false

def writing : Pc → Bool
  | lockDelete | deleteTest | lockDeleters | deletePick | cancelStart _ | cancel _ _ _ _ | snip _ _
  | unlink _ _ _ | subRead _ | subWrite _ _ | free _ | deletePrint | unlockDeleters | unlockDelete
  | wrunlock => true
  | _ => false

def inserting : Pc → Bool
  | findFirst _ | lastTest _ _ | lastNext _ _ | linkFirst _ | linkLast _ _ | addRead | addWrite _
  | insertPrint | unlockInsert => true
  | _ => false

/-- A deleter that holds `searchers_lock` and `inserters_lock`. -/
def deleting : Pc → Bool
  | deleteTest | lockDeleters | deletePick | cancelStart _ | cancel _ _ _ _ | snip _ _ | unlink _ _ _
  | subRead _ | subWrite _ _ | free _ | deletePrint | unlockDeleters | unlockDelete => true
  | _ => false

def locksInserters (pc : Pc) : Bool := pc.inserting || pc.deleting

def cancelling : Pc → Bool
  | deletePick | cancelStart _ | cancel _ _ _ _ | snip _ _ | unlink _ _ _ | subRead _ | subWrite _ _
  | free _ | deletePrint | unlockDeleters => true
  | _ => false

def inCancelDinner : Pc → Bool
  | cancelStart _ | cancel _ _ _ _ | snip _ _ | unlink _ _ _ | subRead _ | subWrite _ _ | free _ => true
  | _ => false

/-- The node that only this thread knows: not yet linked, or no longer. -/
def owned : Pc → Option Address
  | clear mine | lockInsert mine | findFirst mine | lastTest mine _ | lastNext mine _ | linkFirst mine
  | linkLast mine _ => some mine
  | subRead curr | subWrite curr _ | free curr => some curr
  | _ => none

/-- The list pointer a walk has reached, whose link its next step may read or write. -/
def pointer : Pc → Option Address
  | find _ _ curr | found curr => curr
  | lastTest _ last | lastNext _ last | linkLast _ last => some last
  | cancel _ _ _ curr | snip _ curr => curr
  | _ => none

/-- What a step from here does to the list of the nodes. -/
def effect (nodes : List Address) : Pc → List Address
  | linkFirst mine | linkLast mine _ => nodes ++ [mine]
  | unlink _ curr _ => nodes.erase curr
  | _ => nodes

/-- How far the list is ahead of the count. -/
def lag : Pc → Int
  | addRead | addWrite _ => 1
  | subRead _ | subWrite _ _ => -1
  | _ => 0

end Pc

end Cs544.Concur.Dinners
