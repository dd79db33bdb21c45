import Mathlib.Logic.Function.Basic
import Mathlib.Tactic.Common

/-! Memory that a program writes to through a pointer.

Positions are relative to the pointer, so that they may be negative. A buffer records which
positions have been written to; nothing that is read depends on the record.
-/

set_option autoImplicit false

namespace Cs544.Library

structure Buffer (α : Type) where
  byte : Int → α
  written : List Int

namespace Buffer

variable {α : Type} {b b' : Buffer α} {i j : Int} {x : α} {l : List α} {n : Nat}

def write (b : Buffer α) (i : Int) (x : α) : Buffer α where
  byte := Function.update b.byte i x
  written := i :: b.written

/-- Values at one position after the other. -/
def writeAll : Buffer α → Int → List α → Buffer α
  | b, _, [] => b
  | b, i, x :: l => (b.write i x).writeAll (i + 1) l

/-- The first `n` values from the pointer on. -/
def slice (b : Buffer α) (n : Nat) : List α := (List.range n).map fun i : Nat => b.byte i

@[simp] theorem byte_write_self : (b.write i x).byte i = x := Function.update_self ..

theorem byte_write_of_ne (other : j ≠ i) : (b.write i x).byte j = b.byte j := Function.update_of_ne other ..

@[simp] theorem mem_written_write : j ∈ (b.write i x).written ↔ j = i ∨ j ∈ b.written := List.mem_cons

theorem byte_writeAll_outside (outside : ¬ (i ≤ j ∧ j < i + l.length)) : (b.writeAll i l).byte j = b.byte j := by
  induction l generalizing b i with
  | nil => rfl
  | cons x l ih =>
    rw [List.length_cons] at outside
    rw [writeAll, ih (by omega), byte_write_of_ne (by omega)]

theorem mem_written_writeAll :
    j ∈ (b.writeAll i l).written ↔ (i ≤ j ∧ j < i + l.length) ∨ j ∈ b.written := by
  induction l generalizing b i with
  | nil =>
    simp only [writeAll, List.length_nil]
    constructor
    · exact .inr
    · rintro (inside | old)
      · omega
      · exact old
  | cons x l ih =>
    rw [writeAll, ih, mem_written_write, List.length_cons, ← or_assoc]
    refine or_congr_left ?_
    omega

@[simp] theorem length_slice : (b.slice n).length = n := by simp [slice]

theorem slice_congr (same : ∀ k < n, b'.byte (k : Nat) = b.byte (k : Nat)) : b'.slice n = b.slice n :=
  List.map_congr_left fun k member => same k (List.mem_range.mp member)

theorem slice_succ : b.slice (n + 1) = b.slice n ++ [b.byte n] := by
  rw [slice, List.range_succ, List.map_append]
  rfl

/-- Writing behind a slice leaves it alone. -/
theorem slice_write_behind (behind : (n : Int) ≤ i) : (b.write i x).slice n = b.slice n :=
  slice_congr fun k inside => byte_write_of_ne (by omega)

theorem slice_write : (b.write n x).slice (n + 1) = b.slice n ++ [x] := by
  rw [slice_succ, byte_write_self, slice_write_behind (Int.le_refl _)]

theorem slice_writeAll : (b.writeAll n l).slice (n + l.length) = b.slice n ++ l := by
  induction l generalizing b n with
  | nil => rw [List.append_nil]; rfl
  | cons x l ih =>
    have behind : ((n : Int) + 1) = ((n + 1 : Nat) : Int) := rfl
    rw [writeAll, behind, List.length_cons, Nat.add_comm l.length 1, ← Nat.add_assoc, ih, slice_write]
    rw [List.append_assoc, List.singleton_append]

end Buffer

end Cs544.Library
