import Mathlib.Tactic.Common

/-! Computations that draw answers from an oracle.

A program that calls a function it does not control is run on a list of the answers it
gets. It has no result when the answers do not suffice. `Ensures` says what holds of
every result, whatever the answers were.
-/

set_option autoImplicit false

namespace Cs544.Library

variable {Answer α β : Type}

abbrev Draw (Answer α : Type) := StateT (List Answer) Option α

def draw : Draw Answer Answer
  | [] => none
  | answer :: rest => some (answer, rest)

theorem draw_bind (f : Answer → Draw Answer β) (answer : Answer) (rest : List Answer) :
    (draw >>= f) (answer :: rest) = f answer rest := rfl

/-- What is true of the result, for all answers. -/
def Ensures (d : Draw Answer α) (P : α → Prop) : Prop :=
  ∀ answers result rest, d answers = some (result, rest) → P result

namespace Ensures

variable {Q : α → Prop} {P : β → Prop}

theorem pure {b : β} (holds : P b) : Ensures (Pure.pure b : Draw Answer β) P := by
  intro answers result rest eq
  cases eq
  exact holds

/-- What the first part ensures, the rest may rely on. -/
theorem seq {d : Draw Answer α} {f : α → Draw Answer β} (first : Ensures d Q) (rest : ∀ a, Q a → Ensures (f a) P) :
    Ensures (d >>= f) P := by
  intro answers result left eq
  change Option.bind (d answers) (fun r => f r.1 r.2) = some (result, left) at eq
  obtain ⟨⟨a, after⟩, drawn, eq⟩ := Option.bind_eq_some_iff.mp eq
  exact rest a (first answers a after drawn) after result left eq

/-- The answers before do not matter, if the rest ensures it for each of them. -/
theorem bind {d : Draw Answer α} {f : α → Draw Answer β} (rest : ∀ a, Ensures (f a) P) :
    Ensures (d >>= f) P :=
  seq (Q := fun _ => True) (fun _ _ _ _ => trivial) fun a _ => rest a

end Ensures

/-- No answer is put back. -/
def Consumes (d : Draw Answer α) : Prop :=
  ∀ answers result rest, d answers = some (result, rest) → rest.length ≤ answers.length

namespace Consumes

theorem pure (a : α) : Consumes (Pure.pure a : Draw Answer α) := by
  intro answers result rest eq
  cases eq
  exact Nat.le_refl _

theorem draw : Consumes (draw : Draw Answer Answer) := by
  intro answers result rest eq
  cases answers with
  | nil => cases eq
  | cons answer answers =>
    cases eq
    exact Nat.le_succ _

theorem bind {d : Draw Answer α} {f : α → Draw Answer β} (first : Consumes d) (rest : ∀ a, Consumes (f a)) :
    Consumes (d >>= f) := by
  intro answers result left eq
  change Option.bind (d answers) (fun r => f r.1 r.2) = some (result, left) at eq
  obtain ⟨⟨a, after⟩, drawn, eq⟩ := Option.bind_eq_some_iff.mp eq
  exact Nat.le_trans (rest a after result left eq) (first answers a after drawn)

end Consumes

end Cs544.Library
