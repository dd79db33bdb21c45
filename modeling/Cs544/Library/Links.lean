import Mathlib.Data.List.Nodup
import Mathlib.Logic.Function.Basic

/-! Circular doubly linked lists.

Every element has a successor and a predecessor. A list is known by its head, which is an
element itself but not a member; the last member is linked back to it. `Ring` says which
members a head has, in order.
-/

set_option autoImplicit false

namespace Cs544.Library

structure Links (α : Type) where
  next : α → α
  prev : α → α

namespace Links

variable {α : Type}

/-- From `x` through the elements of a list, in order, to `y`. -/
def Path (s : Links α) : α → List α → α → Prop
  | x, [], y => s.next x = y ∧ s.prev y = x
  | x, z :: rest, y => s.next x = z ∧ s.prev z = x ∧ s.Path z rest y

/-- The members of the list of a head. -/
structure Ring (s : Links α) (head : α) (members : List α) : Prop where
  path : s.Path head members head
  distinct : (head :: members).Nodup

variable {s : Links α} {x y z head : α} {l m before after : List α}

/-! ## Paths -/

theorem path_append : s.Path x (l ++ z :: m) y ↔ s.Path x l z ∧ s.Path z m y := by
  induction l generalizing x with
  | nil => simp only [List.nil_append, Path, and_assoc]
  | cons w l ih => simp only [List.cons_append, Path, ih, and_assoc]

/-- The element before the end of a path is on it. -/
theorem Path.prev_mem (path : s.Path x l y) : s.prev y ∈ x :: l := by
  induction l generalizing x with
  | nil => simp [path.2]
  | cons z l ih => exact List.mem_cons_of_mem x (ih path.2.2)

theorem Path.next_mem (path : s.Path x l y) : s.next x ∈ l ++ [y] := by
  cases l with
  | nil => simp [path.1]
  | cons z l => simp [path.1]

/-- Paths with the same links between the same elements. -/
theorem Path.transport {t : Links α} (path : s.Path x l y) (next : ∀ u ∈ x :: l, t.next u = s.next u)
    (prev : ∀ u ∈ l ++ [y], t.prev u = s.prev u) : t.Path x l y := by
  induction l generalizing x with
  | nil =>
    refine ⟨?_, ?_⟩
    · rw [next x (by simp)]
      exact path.1
    · rw [prev y (by simp)]
      exact path.2
  | cons z l ih =>
    refine ⟨?_, ?_, ?_⟩
    · rw [next x (by simp)]
      exact path.1
    · rw [prev z (by simp)]
      exact path.2.1
    · apply ih path.2.2
      · exact fun u member => next u (List.mem_cons_of_mem x member)
      · exact fun u member => prev u (List.mem_cons_of_mem z member)

theorem Ring.next_head (ring : s.Ring head (x :: l)) : s.next head = x := ring.path.1

/-- A member is the only one if its neighbours are the same. -/
theorem Ring.prev_eq_next_iff (ring : s.Ring head (x :: l)) : s.prev x = s.next x ↔ l = [] := by
  obtain ⟨enter, back, rest⟩ := ring.path
  cases l with
  | nil => simp [back, rest.1]
  | cons y l =>
    have distinct := ring.distinct
    simp only [List.nodup_cons, List.mem_cons, not_or] at distinct
    rw [back, rest.1]
    exact ⟨fun same => absurd same distinct.1.2.1, fun none' => by cases none'⟩

/-! ## Changing the links -/

variable [DecidableEq α]

/-- Make two elements neighbours. -/
def join (s : Links α) (before after : α) : Links α where
  prev := Function.update s.prev after before
  next := Function.update s.next before after

/-- Put an element between two neighbours. -/
def between (s : Links α) (new before after : α) : Links α where
  prev := Function.update (Function.update s.prev after new) new before
  next := Function.update (Function.update s.next new after) before new

def delete (s : Links α) (entry : α) : Links α := s.join (s.prev entry) (s.next entry)

def add (s : Links α) (new head : α) : Links α := s.between new head (s.next head)

def addTail (s : Links α) (new head : α) : Links α := s.between new (s.prev head) head

def move (s : Links α) (entry head : α) : Links α := (s.delete entry).add entry head

def moveTail (s : Links α) (entry head : α) : Links α := (s.delete entry).addTail entry head

def empty (s : Links α) (head : α) : Bool := s.next head = head

/-- Taking an element out of a path. -/
theorem Path.delete (path : s.Path x (l ++ z :: m) y) (distinct : (x :: (l ++ z :: m)).Nodup)
    (apart : y ∉ l ++ z :: m) : (s.delete z).Path x (l ++ m) y := by
  induction l generalizing x with
  | nil =>
    obtain ⟨enter, back, rest⟩ := path
    simp only [List.nil_append, List.nodup_cons, List.mem_cons, not_or, Links.delete, back] at distinct apart ⊢
    cases m with
    | nil =>
      rw [rest.1]
      exact ⟨by simp [join], by simp [join]⟩
    | cons w m =>
      rw [rest.1]
      simp only [List.nodup_cons, List.mem_cons, not_or] at distinct apart
      refine ⟨by simp [join], by simp [join], rest.2.2.transport ?_ ?_⟩
      · intro u member
        have other : u ≠ x := by
          rintro rfl
          rcases List.mem_cons.mp member with rfl | member
          · exact distinct.1.2.1 rfl
          · exact distinct.1.2.2 member
        exact Function.update_of_ne other ..
      · intro u member
        have other : u ≠ w := by
          rintro rfl
          rcases List.mem_append.mp member with member | member
          · exact distinct.2.2.1 member
          · exact apart.2.1 (List.mem_singleton.mp member).symm
        exact Function.update_of_ne other ..
  | cons w l ih =>
    obtain ⟨enter, back, rest⟩ := path
    obtain ⟨fresh, distinct⟩ := List.nodup_cons.mp distinct
    have rest' := ih rest distinct fun member => apart (List.mem_cons_of_mem w member)
    obtain ⟨front, behind⟩ := path_append.mp rest
    have outside := (List.nodup_cons.mp distinct).1
    refine ⟨?_, ?_, rest'⟩
    · have other : x ≠ s.prev z := by
        intro same
        apply fresh
        rw [same]
        have member := front.prev_mem
        rw [List.cons_append]
        exact List.mem_cons.mpr ((List.mem_cons.mp member).imp_right (List.mem_append_left _))
      rw [← enter]
      exact Function.update_of_ne other ..
    · have other : w ≠ s.next z := by
        intro same
        rcases List.mem_append.mp behind.next_mem with member | member
        · apply outside
          rw [same]
          exact List.mem_append_right l (List.mem_cons_of_mem z member)
        · apply apart
          rw [← List.mem_singleton.mp member, ← same]
          exact List.mem_cons_self
      rw [← back]
      exact Function.update_of_ne other ..

/-- Putting an element before the end of a path. -/
theorem Path.addTail (path : s.Path x l y) (distinct : (x :: l).Nodup) (apart : y ∉ l) (new : z ∉ x :: l)
    (other : z ≠ y) : (s.addTail z y).Path x (l ++ [z]) y := by
  induction l generalizing x with
  | nil =>
    have fresh : x ≠ z := fun same => new (by simp [same])
    simp only [Links.addTail, path.2, List.nil_append, Path, between]
    refine ⟨by simp, by simp, ?_, ?_⟩
    · rw [Function.update_of_ne (Ne.symm fresh), Function.update_self]
    · rw [Function.update_of_ne (Ne.symm other), Function.update_self]
  | cons w l ih =>
    obtain ⟨enter, back, rest⟩ := path
    obtain ⟨fresh, distinct⟩ := List.nodup_cons.mp distinct
    simp only [List.mem_cons, not_or] at apart new
    have rest' := ih rest distinct apart.2 (by simp [new])
    refine ⟨?_, ?_, rest'⟩
    · have behind : x ≠ s.prev y := fun same => fresh (by rw [same]; exact rest.prev_mem)
      simp only [Links.addTail, between]
      rw [Function.update_of_ne behind, Function.update_of_ne (Ne.symm new.1), enter]
    · simp only [Links.addTail, between]
      rw [Function.update_of_ne (Ne.symm new.2.1), Function.update_of_ne (Ne.symm apart.1), back]

theorem Ring.not_empty (ring : s.Ring head (x :: l)) : s.empty x = false := by
  obtain ⟨_, _, rest⟩ := ring.path
  have distinct := ring.distinct
  simp only [List.nodup_cons, List.mem_cons, not_or] at distinct
  have away : s.next x ≠ x := by
    intro same
    have member := rest.next_mem
    rw [same] at member
    rcases List.mem_append.mp member with member | member
    · exact distinct.2.1 member
    · exact distinct.1.1 (List.mem_singleton.mp member).symm
  simp [Links.empty, away]

theorem Ring.delete (ring : s.Ring head (before ++ x :: after)) : (s.delete x).Ring head (before ++ after) := by
  obtain ⟨path, distinct⟩ := ring
  refine ⟨path.delete distinct (List.nodup_cons.mp distinct).1, ?_⟩
  exact distinct.sublist ((List.Sublist.append_left (List.sublist_cons_self x after) before).cons_cons head)

theorem Ring.addTail (ring : s.Ring head l) (new : x ∉ head :: l) : (s.addTail x head).Ring head (l ++ [x]) := by
  obtain ⟨path, distinct⟩ := ring
  simp only [List.mem_cons, not_or] at new
  refine ⟨path.addTail distinct (List.nodup_cons.mp distinct).1 (by simp [new]) new.1, ?_⟩
  rw [← List.cons_append]
  refine List.Nodup.append distinct (List.nodup_singleton x) ?_
  simpa using new

/-- A member that is moved to the tail goes behind all others. -/
theorem Ring.moveTail (ring : s.Ring head (before ++ x :: after)) :
    (s.moveTail x head).Ring head (before ++ after ++ [x]) := by
  refine ring.delete.addTail fun member => ?_
  have distinct := ring.distinct
  simp only [List.nodup_cons, List.nodup_middle, List.mem_append, List.mem_cons, not_or] at distinct member
  tauto

end Links

end Cs544.Library
