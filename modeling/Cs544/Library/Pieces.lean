import Mathlib.Algebra.GroupWithZero.Nat
import Mathlib.Data.List.Basic

/-! A transform applied to consecutive pieces of a list.

The sizes of the pieces are given; each piece is transformed on its own. Cutting a list
into the same pieces again undoes a transform that can be undone on every piece.
-/

set_option autoImplicit false

namespace Cs544.Library

variable {α : Type} {f g : List α → List α} {n : Nat} {sizes : List Nat} {l front back : List α}

def piecewise (f : List α → List α) : List Nat → List α → List α
  | [], _ => []
  | n :: sizes, l => f (l.take n) ++ piecewise f sizes (l.drop n)

@[simp] theorem piecewise_nil : piecewise f [] l = [] := rfl

theorem piecewise_cons (length : front.length = n) :
    piecewise f (n :: sizes) (front ++ back) = f front ++ piecewise f sizes back := by
  rw [piecewise, List.take_left' length, List.drop_left' length]

theorem piecewise_inverse (keeps : ∀ x, (f x).length = x.length) (inverse : ∀ x, x.length ∈ sizes → g (f x) = x)
    (whole : l.length = sizes.sum) : piecewise g sizes (piecewise f sizes l) = l := by
  induction sizes generalizing l with
  | nil =>
    have empty : l = [] := List.length_eq_zero_iff.mp whole
    simp [empty]
  | cons n sizes ih =>
    rw [List.sum_cons] at whole
    have piece : (l.take n).length = n := by
      rw [List.length_take]
      omega
    have first : (f (l.take n)).length = n := (keeps _).trans piece
    have behind := ih (fun x member => inverse x (List.mem_cons_of_mem n member))
      (show (l.drop n).length = sizes.sum by rw [List.length_drop]; omega)
    have cut : piecewise f (n :: sizes) l = f (l.take n) ++ piecewise f sizes (l.drop n) := rfl
    rw [cut, piecewise_cons first, inverse _ (by simp [piece]), behind, List.take_append_drop]

end Cs544.Library
