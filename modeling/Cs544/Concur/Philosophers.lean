import Mathlib.Data.Fintype.Basic
import Mathlib.Logic.Function.Basic
import Cs544.Library.Runs

/-! The dining philosophers of `concurrent2.c`.

Five threads share two pools of forks and a gate each. A philosopher that has both
forks sets its flag, and the one that finds all five flags set opens every gate again
and clears the flags. Every semaphore operation and every read or write of a flag is a
step of its own; thinking and eating touch nothing shared.
-/

set_option autoImplicit false

namespace Cs544.Concur.Philosophers

open Cs544.Library

abbrev Phi := Fin 5

inductive Pc where
  -- `sem_wait(&sem_phi[phi_no])`, behind thinking.
  | gate
  | waitLeft
  | waitRight
  -- `phi[phi_no] = 1`.
  | flag
  -- Read `phi[k]` in the condition.
  | test (k : Phi)
  -- `sem_post(&sem_phi[k])` in the loop.
  | post (k : Phi)
  -- `phi[k] = 0` in the loop.
  | clear (k : Phi)
  -- `sem_post(&sem_left)`, behind eating.
  | postLeft
  | postRight
  deriving DecidableEq, Repr

structure State where
  semLeft : Nat
  semRight : Nat
  semPhi : Phi → Nat
  phi : Phi → Bool
  pc : Phi → Pc

/-- As `main` sets the semaphores up. -/
def initial : State := ⟨3, 2, fun _ => 1, fun _ => false, fun _ => .gate⟩

def State.goto (s : State) (p : Phi) (pc : Pc) : State := { s with pc := Function.update s.pc p pc }

/-- One step of philosopher `p`; there is none while it waits for a semaphore. -/
def step (s : State) (p : Phi) : Option State :=
  match s.pc p with
  | .gate =>
      if 0 < s.semPhi p then
        some { s.goto p .waitLeft with semPhi := Function.update s.semPhi p (s.semPhi p - 1) }
      else none
  | .waitLeft =>
      if 0 < s.semLeft then some { s.goto p .waitRight with semLeft := s.semLeft - 1 } else none
  | .waitRight =>
      if 0 < s.semRight then some { s.goto p .flag with semRight := s.semRight - 1 } else none
  | .flag => some { s.goto p (.test 0) with phi := Function.update s.phi p true }
  | .test k =>
      -- `&&` stops at the first flag that is not set.
      if s.phi k then some (s.goto p (if k = 4 then .post 0 else .test (k + 1)))
      else some (s.goto p .postLeft)
  | .post k =>
      some { s.goto p (.clear k) with semPhi := Function.update s.semPhi k (s.semPhi k + 1) }
  | .clear k =>
      some { s.goto p (if k = 4 then .postLeft else .post (k + 1)) with
        phi := Function.update s.phi k false }
  | .postLeft => some { s.goto p .postRight with semLeft := s.semLeft + 1 }
  | .postRight => some { s.goto p .gate with semRight := s.semRight + 1 }

/-- What a step is to the others: a philosopher passes its gate, one finds all flags
set, or anything else. -/
inductive Event where
  | passes (p : Phi)
  | foundAll (p : Phi)
  | other (p : Phi)
  deriving DecidableEq, Repr

def Event.philosopher : Event → Phi
  | .passes p | .foundAll p | .other p => p

def event (s : State) (p : Phi) : Event :=
  match s.pc p with
  | .gate => .passes p
  | .test k => if k = 4 ∧ s.phi k = true then .foundAll p else .other p
  | _ => .other p

def Step (s : State) (e : Event) (s' : State) : Prop :=
  step s e.philosopher = some s' ∧ event s e.philosopher = e

/-- The events of a schedule: who takes the next step. -/
def trace : State → List Phi → List Event
  | _, [] => []
  | s, p :: schedule =>
      event s p ::
        match step s p with
        | some s' => trace s' schedule
        | none => []

/-- Everybody eats alone, the last one opens the gates, and the first one comes back. -/
def quietSchedule : List Phi :=
  List.replicate 8 0 ++ List.replicate 9 1 ++ List.replicate 10 2 ++ List.replicate 11 3 ++
    List.replicate 21 4 ++ [0]

/-- Three have eaten; the last two both take forks and set their flags before either
tests them, both open all gates, and the second philosopher eats twice. -/
def doubleReset : List Phi :=
  List.replicate 8 0 ++ List.replicate 9 1 ++ List.replicate 10 2 ++
    List.replicate 4 3 ++ List.replicate 4 4 ++ List.replicate 5 3 ++ List.replicate 5 4 ++
    List.replicate 12 3 ++ List.replicate 12 4 ++ List.replicate 8 1

/-- The last one has opened the first gate; the first philosopher passes it and sets its
flag, which is then cleared. All others eat once more, and nobody finds all flags set. -/
def lostFlag : List Phi :=
  List.replicate 8 0 ++ List.replicate 9 1 ++ List.replicate 10 2 ++ List.replicate 11 3 ++
    List.replicate 10 4 ++ List.replicate 4 0 ++ List.replicate 11 4 ++ List.replicate 3 0 ++
    List.replicate 7 1 ++ List.replicate 7 2 ++ List.replicate 7 3 ++ List.replicate 7 4

/-! ## Where a philosopher is -/

namespace Pc

/-- Past the gate and not yet flagged. -/
def pending : Pc → Nat
  | waitLeft | waitRight | flag => 1
  | _ => 0

def resetting : Pc → Bool
  | post _ | clear _ => true
  | _ => false

/-- The loop has still to open gate `i`. -/
def owes : Pc → Phi → Bool
  | post k, i => decide (k ≤ i)
  | clear k, i => decide (k < i)
  | _, _ => false

end Pc

variable {s s' : State} {p q i k : Phi} {pc : Pc}

@[simp] theorem goto_self : (s.goto p pc).pc p = pc := Function.update_self ..

theorem goto_of_ne (other : q ≠ p) : (s.goto p pc).pc q = s.pc q := Function.update_of_ne other ..

theorem owes_next (k i : Phi) : (if k = 4 then Pc.postLeft else .post (k + 1)).owes i = (Pc.clear k).owes i := by
  split_ifs with last
  · have reached : ¬ k < i := last ▸ (Fin.le_last i).not_gt
    simp [Pc.owes, reached]
  · have onward : k + 1 ≤ i ↔ k < i := by
      revert last i
      decide +revert
    simp [Pc.owes, onward]

end Cs544.Concur.Philosophers
