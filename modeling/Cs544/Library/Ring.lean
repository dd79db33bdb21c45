import Mathlib.Data.List.Basic

/-! Circular lists with a head, as the kernel's `list_head` has them.

A ring is the list of its elements. A cursor is what a `struct list_head *` into
the ring can be: one of the elements, by its index, or the head itself. A loop over
the ring that is not left early ends with its cursor on the head.
-/

set_option autoImplicit false

namespace Cs544.Library.Ring

variable {α : Type}

/-- `none` is the head. -/
abbrev Cursor := Option Nat

/-- `list_entry` of a cursor. The head is no element. -/
def entry (l : List α) (c : Cursor) : Option α := c.bind fun i => l[i]?

/-- `c->next`. -/
def next (l : List α) : Cursor → Cursor
  | none => if l.length = 0 then none else some 0
  | some i => if i + 1 < l.length then some (i + 1) else none

/-- `c->prev`. -/
def prev (l : List α) : Cursor → Cursor
  | none => if l.length = 0 then none else some (l.length - 1)
  | some 0 => none
  | some (i + 1) => some i

/-- The cursor behind a `list_for_each` whose body leaves the loop at the first
element with `stop`. -/
def forEach (stop : α → Bool) (l : List α) : Cursor := l.findIdx? stop

/-- The same for `list_for_each_prev`. -/
def forEachPrev (stop : α → Bool) (l : List α) : Cursor :=
  (l.reverse.findIdx? stop).map fun i => l.length - 1 - i

/-- `list_add(x, c)`: behind the cursor, so in front of all when it is the head. -/
def add (l : List α) (x : α) : Cursor → List α
  | none => x :: l
  | some i => l.insertIdx (i + 1) x

/-- `list_del` of the element at the cursor. -/
def del (l : List α) : Cursor → List α
  | none => l
  | some i => l.eraseIdx i

variable {l before after : List α} {x y : α} {stop : α → Bool}

@[simp] theorem entry_split : entry (before ++ x :: after) (some before.length) = some x := by
  simp [entry]

@[simp] theorem add_head : add l x none = x :: l := rfl

@[simp] theorem add_split :
    add (before ++ x :: after) y (some before.length) = before ++ x :: y :: after := by
  induction before with
  | nil => rfl
  | cons z before ih =>
    simp only [add, List.cons_append, List.length_cons, List.insertIdx_succ_cons] at ih ⊢
    rw [ih]

@[simp] theorem del_split : del (before ++ x :: after) (some before.length) = before ++ after := by
  simp [del, List.eraseIdx_append_of_length_le]

@[simp] theorem prev_head : prev (before ++ [x]) none = some before.length := by simp [prev]

@[simp] theorem next_head : next (x :: after) none = some 0 := by simp [next]

theorem forEach_cases (stop : α → Bool) (l : List α) :
    (forEach stop l = none ∧ ∀ y ∈ l, stop y = false) ∨
    ∃ before x after, l = before ++ x :: after ∧ forEach stop l = some before.length ∧
      stop x = true ∧ ∀ y ∈ before, stop y = false := by
  induction l with
  | nil => exact .inl ⟨rfl, by simp⟩
  | cons z l ih =>
    by_cases here : stop z = true
    · exact .inr ⟨[], z, l, rfl, by simp [forEach, List.findIdx?_cons, here], here, by simp⟩
    · have passed : stop z = false := by simpa using here
      rcases ih with ⟨none', rest⟩ | ⟨before, x, after, rfl, found, stops, rest⟩
      · refine .inl ⟨?_, by simpa [passed] using rest⟩
        rw [forEach] at none' ⊢
        simp [List.findIdx?_cons, passed, none']
      · refine .inr ⟨z :: before, x, after, rfl, ?_, stops, by simpa [passed] using rest⟩
        rw [forEach] at found ⊢
        simp [List.findIdx?_cons, passed, found]

theorem forEachPrev_cases (stop : α → Bool) (l : List α) :
    (forEachPrev stop l = none ∧ ∀ y ∈ l, stop y = false) ∨
    ∃ before x after, l = before ++ x :: after ∧ forEachPrev stop l = some before.length ∧
      stop x = true ∧ ∀ y ∈ after, stop y = false := by
  rcases forEach_cases stop l.reverse with ⟨none', rest⟩ | ⟨after, x, before, split, found, stops, rest⟩
  · rw [forEach] at none'
    exact .inl ⟨by simp [forEachPrev, none'], by simpa using rest⟩
  · rw [forEach] at found
    have shape : l = before.reverse ++ x :: after.reverse := by
      rw [← List.reverse_reverse l, split]
      simp
    refine .inr ⟨before.reverse, x, after.reverse, shape, ?_, stops, by simpa using rest⟩
    have size : l.length = before.length + (after.length + 1) := by simp [shape]
    rw [forEachPrev, found]
    simp only [Option.map_some, List.length_reverse, Option.some.injEq]
    omega

/-- Two places of one ring: the same one, or one in front of the other. -/
theorem split_cases {front back : List α}
    (same : front ++ x :: back = before ++ y :: after) :
    (x = y ∧ front = before ∧ back = after) ∨
    (∃ gap, before = front ++ x :: gap ∧ back = gap ++ y :: after) ∨
    ∃ gap, front = before ++ y :: gap ∧ after = gap ++ x :: back := by
  rcases List.append_eq_append_iff.mp same with ⟨gap, rfl, tail⟩ | ⟨gap, rfl, tail⟩
  · cases gap with
    | nil => exact .inl (by simpa using tail)
    | cons z gap =>
      obtain ⟨rfl, rfl⟩ : x = z ∧ back = gap ++ y :: after := by simpa using tail
      exact .inr (.inl ⟨gap, rfl, rfl⟩)
  · cases gap with
    | nil =>
      obtain ⟨rfl, rfl⟩ : y = x ∧ after = back := by simpa using tail
      exact .inl (by simp)
    | cons z gap =>
      obtain ⟨rfl, rfl⟩ : y = z ∧ after = gap ++ x :: back := by simpa using tail
      exact .inr (.inr ⟨gap, rfl, rfl⟩)

end Cs544.Library.Ring
