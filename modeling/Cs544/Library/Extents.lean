import Mathlib.Algebra.BigOperators.Group.List.Basic
import Mathlib.Algebra.GroupWithZero.Nat
import Mathlib.Tactic.Common

/-! Lists of disjoint extents kept in address order.

`Separated` is the canonical form of such a list: extents are non-empty, sorted
and never touch, so the list is determined by the set of positions it covers.
Memory updates only need that extents do not overlap, which is `Spaced 0`.
`release` gives an extent back and merges it with its neighbours, `carve` takes
a range out of one extent.
-/

set_option autoImplicit false

namespace Cs544.Library

structure Extent where
  start : Nat
  len : Nat
  deriving DecidableEq, Repr

namespace Extent

def stop (e : Extent) : Nat := e.start + e.len

/-- Positions of an extent, as a half-open range. -/
def Contains (e : Extent) (x : Nat) : Prop := e.start ≤ x ∧ x < e.start + e.len

instance (e : Extent) (x : Nat) : Decidable (e.Contains x) :=
  inferInstanceAs (Decidable (_ ∧ _))

def Disjoint (e f : Extent) : Prop := e.stop ≤ f.start ∨ f.stop ≤ e.start

theorem Disjoint.symm {e f : Extent} (h : e.Disjoint f) : f.Disjoint e := h.elim .inr .inl

theorem disjoint_iff {e f : Extent} (he : 0 < e.len) (hf : 0 < f.len) :
    e.Disjoint f ↔ ∀ x, ¬ (e.Contains x ∧ f.Contains x) := by
  simp only [Disjoint, stop, Contains]
  constructor
  · intro apart x both
    omega
  · intro apart
    have low := apart e.start
    have high := apart f.start
    omega

end Extent

/-- A position covered by some extent of the list. -/
def Covers (l : List Extent) (x : Nat) : Prop := ∃ e ∈ l, e.Contains x

@[simp] theorem covers_nil (x : Nat) : ¬ Covers [] x := by simp [Covers]

@[simp] theorem covers_cons (e : Extent) (l : List Extent) (x : Nat) :
    Covers (e :: l) x ↔ e.Contains x ∨ Covers l x := by simp [Covers]

@[simp] theorem covers_append (l m : List Extent) (x : Nat) :
    Covers (l ++ m) x ↔ Covers l x ∨ Covers m x := by
  simp only [Covers, List.mem_append, or_and_right, exists_or]

/-- Total length of the extents. -/
def total (l : List Extent) : Nat := (l.map Extent.len).sum

@[simp] theorem total_nil : total [] = 0 := rfl

@[simp] theorem total_cons (e : Extent) (l : List Extent) : total (e :: l) = e.len + total l := rfl

@[simp] theorem total_append (l m : List Extent) : total (l ++ m) = total l + total m := by
  simp [total]

theorem covers_perm {l m : List Extent} (perm : l.Perm m) (x : Nat) : Covers l x ↔ Covers m x := by
  simp only [Covers, perm.mem_iff]

theorem total_perm {l m : List Extent} (perm : l.Perm m) : total l = total m :=
  (perm.map _).sum_eq

theorem total_eq_zero {l : List Extent} (positive : ∀ e ∈ l, 0 < e.len) (zero : total l = 0) : l = [] := by
  cases l with
  | nil => rfl
  | cons e rest =>
    have := positive e (by simp)
    simp only [total_cons] at zero
    omega

/-- Extents that follow on each other without a gap, from `lo` to `hi`. -/
def Consecutive : Nat → List Extent → Nat → Prop
  | lo, [], hi => lo = hi
  | lo, e :: rest, hi => e.start = lo ∧ Consecutive e.stop rest hi

theorem Consecutive.le {lo hi : Nat} {l : List Extent} (tiles : Consecutive lo l hi) : lo ≤ hi := by
  induction l generalizing lo with
  | nil => exact Nat.le_of_eq tiles
  | cons e rest ih =>
    have first := tiles.1
    have behind := ih tiles.2
    simp only [Extent.stop] at behind
    omega

/-- Their positions, one after the other, are a range. -/
theorem Consecutive.positions {lo hi : Nat} {l : List Extent} (tiles : Consecutive lo l hi) :
    (l.flatMap fun e => List.range' e.start e.len) = List.range' lo (hi - lo) := by
  induction l generalizing lo with
  | nil =>
    cases tiles
    simp
  | cons e rest ih =>
    obtain ⟨rfl, tiles⟩ := tiles
    have behind := tiles.le
    simp only [Extent.stop] at behind
    have length : hi - e.start = e.len + (hi - e.stop) := by simp only [Extent.stop]; omega
    rw [List.flatMap_cons, ih tiles, length, Extent.stop, List.range'_append_1]

/-- Extents in address order inside `[lo, hi)`, each non-empty, with at least
`gap` free positions after each one. -/
def Spaced (gap : Nat) : Nat → List Extent → Nat → Prop
  | _, [], _ => True
  | lo, e :: rest, hi =>
      lo ≤ e.start ∧ 0 < e.len ∧ e.stop ≤ hi ∧ Spaced gap (e.stop + gap) rest hi

/-- Extents that do not overlap and do not even touch. -/
abbrev Separated : Nat → List Extent → Nat → Prop := Spaced 1

namespace Spaced

variable {gap lo hi low : Nat} {e f : Extent} {l m : List Extent}

theorem weaken (sep : Spaced gap lo l hi) (le : low ≤ lo) : Spaced gap low l hi := by
  cases l with
  | nil => trivial
  | cons e rest => exact ⟨Nat.le_trans le sep.1, sep.2⟩

theorem ordered (sep : Spaced gap lo l hi) : Spaced 0 lo l hi := by
  induction l generalizing lo with
  | nil => trivial
  | cons e rest ih => exact ⟨sep.1, sep.2.1, sep.2.2.1, (ih sep.2.2.2).weaken (by omega)⟩

theorem bounds (sep : Spaced gap lo l hi) (member : e ∈ l) :
    lo ≤ e.start ∧ 0 < e.len ∧ e.stop ≤ hi := by
  induction l generalizing lo with
  | nil => cases member
  | cons head rest ih =>
    obtain ⟨low, positive, high, tail⟩ := sep
    rcases List.mem_cons.mp member with rfl | member
    · exact ⟨low, positive, high⟩
    · obtain ⟨start, rest⟩ := ih tail member
      exact ⟨by simp only [Extent.stop] at start; omega, rest⟩

theorem covers_bounds {x : Nat} (sep : Spaced gap lo l hi) (covered : Covers l x) :
    lo ≤ x ∧ x < hi := by
  obtain ⟨e, member, start, stop⟩ := covered
  obtain ⟨low, _, high⟩ := sep.bounds member
  simp only [Extent.stop] at high
  omega

theorem pairwise (sep : Spaced gap lo l hi) : l.Pairwise fun e f => e.stop + gap ≤ f.start := by
  induction l generalizing lo with
  | nil => exact .nil
  | cons head rest ih =>
    refine .cons (fun f member => ?_) (ih sep.2.2.2)
    exact (sep.2.2.2.bounds member).1

theorem append_iff : Spaced gap lo (l ++ e :: m) hi ↔
    Spaced gap lo l hi ∧ (∀ f ∈ l, f.stop + gap ≤ e.start) ∧ lo ≤ e.start ∧
      Spaced gap e.start (e :: m) hi := by
  induction l generalizing lo with
  | nil =>
    simp only [List.nil_append, Spaced, List.not_mem_nil, false_implies, implies_true, true_and,
      Nat.le_refl]
  | cons head rest ih =>
    simp only [List.cons_append, Spaced, ih, List.mem_cons, forall_eq_or_imp, Extent.stop]
    constructor
    · rintro ⟨low, positive, high, tail, before, gap, last⟩
      exact ⟨⟨low, positive, high, tail⟩, ⟨by omega, before⟩, by omega, last⟩
    · rintro ⟨⟨low, positive, high, tail⟩, ⟨gap, before⟩, _, last⟩
      exact ⟨low, positive, high, tail, before, by omega, last⟩

theorem total_le (sep : Spaced gap lo l hi) (le : lo ≤ hi) : lo + total l ≤ hi := by
  induction l generalizing lo with
  | nil => exact le
  | cons e rest ih =>
    obtain ⟨start, _, stop, tail⟩ := sep
    rcases rest with _ | ⟨f, others⟩
    · simp only [total_cons, total_nil, Extent.stop] at *
      omega
    · have := ih tail (by have := tail.1; have := tail.2.2.1; simp only [Extent.stop] at *; omega)
      simp only [total_cons, Extent.stop] at *
      omega

theorem length_le (sep : Spaced gap lo l hi) : l.length ≤ total l := by
  induction l generalizing lo with
  | nil => exact Nat.le_refl _
  | cons e rest ih =>
    have positive := sep.2.1
    have := ih sep.2.2.2
    simp only [List.length_cons, total_cons]
    omega

theorem prepend (sep : Spaced gap lo l hi) (rest : Spaced gap low m hi)
    (before : ∀ f ∈ l, f.stop + gap ≤ low) (le : lo ≤ low) : Spaced gap lo (l ++ m) hi := by
  induction l generalizing lo with
  | nil => exact rest.weaken le
  | cons head tail ih =>
    obtain ⟨start, positive, stop, sep⟩ := sep
    refine ⟨start, positive, stop, ih sep (fun f member => before f (by simp [member])) ?_⟩
    exact before head (by simp)

theorem raise {high : Nat} (sep : Spaced gap lo l hi) (le : hi ≤ high) : Spaced gap lo l high := by
  induction l generalizing lo with
  | nil => trivial
  | cons head tail ih =>
    obtain ⟨start, positive, stop, sep⟩ := sep
    exact ⟨start, positive, Nat.le_trans stop le, ih sep⟩

/-- Extents inside of one take its place. -/
theorem replace {pieces : List Extent} (sep : Spaced gap lo (l ++ e :: m) hi)
    (inner : Spaced gap e.start pieces e.stop) : Spaced gap lo (l ++ (pieces ++ m)) hi := by
  obtain ⟨left, before, le, _, _, stop, right⟩ := append_iff.mp sep
  have within (f : Extent) (member : f ∈ pieces) : f.stop + gap ≤ e.stop + gap :=
    Nat.add_le_add_right (inner.bounds member).2.2 gap
  refine left.prepend ((inner.raise stop).prepend right within ?_) before le
  simp only [Extent.stop]
  omega

/-- The two pieces of an extent that is cut touch. -/
theorem cut {d : Nat} (sep : Spaced 0 lo (l ++ e :: m) hi) (positive : 0 < d) (less : d < e.len) :
    Spaced 0 lo (l ++ ⟨e.start, d⟩ :: ⟨e.start + d, e.len - d⟩ :: m) hi := by
  have inner : Spaced 0 e.start [⟨e.start, d⟩, ⟨e.start + d, e.len - d⟩] e.stop := by
    simp only [Spaced, Extent.stop, and_true]
    omega
  exact sep.replace inner

end Spaced

namespace Separated

variable {lo hi low : Nat} {e f : Extent} {l m : List Extent}

/-- The canonical form: separated lists that cover the same positions are equal. -/
theorem unique (first : Separated lo l hi) (second : Separated low m hi)
    (same : ∀ x, Covers l x ↔ Covers m x) : l = m := by
  induction l generalizing lo low m with
  | nil =>
    cases m with
    | nil => rfl
    | cons f rest =>
      have := (same f.start).mpr (by simp only [covers_cons]; left; exact ⟨by omega, by have := second.2.1; omega⟩)
      simp at this
  | cons e rest ih =>
    cases m with
    | nil =>
      have := (same e.start).mp (by simp only [covers_cons]; left; exact ⟨by omega, by have := first.2.1; omega⟩)
      simp at this
    | cons f others =>
      obtain ⟨_, positive, _, tail⟩ := first
      obtain ⟨_, positive', _, tail'⟩ := second
      have after {x : Nat} (h : Covers rest x) : e.stop + 1 ≤ x := (tail.covers_bounds h).1
      have after' {x : Nat} (h : Covers others x) : f.stop + 1 ≤ x := (tail'.covers_bounds h).1
      simp only [covers_cons, Extent.Contains, Extent.stop] at same after after'
      -- Both lists start at the least covered position and the first gap ends
      -- both heads.
      have start : e.start = f.start := by
        have left := (same e.start).mp (.inl ⟨by omega, by omega⟩)
        have right := (same f.start).mpr (.inl ⟨by omega, by omega⟩)
        rcases left with left | left <;> rcases right with right | right
        · omega
        · have := after right; omega
        · have := after' left; omega
        · have := after' left; have := after right; omega
      have len : e.len = f.len := by
        rcases Nat.lt_trichotomy e.len f.len with less | equal | greater
        · rcases (same (e.start + e.len)).mpr (.inl ⟨by omega, by omega⟩) with inside | covered
          · omega
          · have := after covered; omega
        · exact equal
        · rcases (same (f.start + f.len)).mp (.inl ⟨by omega, by omega⟩) with inside | covered
          · omega
          · have := after' covered; omega
      have head : e = f := by
        cases e; cases f; simp_all
      subst head
      refine congrArg (e :: ·) (ih tail tail' fun x => ?_)
      constructor
      · intro covered
        rcases (same x).mp (.inr covered) with inside | covered'
        · have := after covered; omega
        · exact covered'
      · intro covered
        rcases (same x).mpr (.inr covered) with inside | covered'
        · have := after' covered; omega
        · exact covered'

end Separated

/-! ## Taking a range out of one extent -/

/-- What is left of an extent when `len` positions from `at` on are taken out. -/
def carve (e : Extent) (pos len : Nat) : List Extent :=
  (if pos = e.start then [] else [⟨e.start, pos - e.start⟩]) ++
    (if pos + len = e.stop then [] else [⟨pos + len, e.stop - (pos + len)⟩])

section
variable {lo hi low pos len : Nat} {e : Extent} {l m : List Extent}

theorem carve_all (e : Extent) : carve e e.start e.len = [] := by simp [carve, Extent.stop]

theorem carve_front (less : len < e.len) :
    carve e e.start len = [⟨e.start + len, e.len - len⟩] := by
  rw [carve, if_pos rfl, if_neg (by simp only [Extent.stop]; omega)]
  simp [Extent.stop, Nat.add_sub_add_left]

/-- Carving behind the front of an extent leaves the front as a piece of its own. -/
theorem carve_behind (less : e.start < pos) (within : pos ≤ e.stop) :
    carve e pos len = ⟨e.start, pos - e.start⟩ :: carve ⟨pos, e.stop - pos⟩ pos len := by
  have stop : Extent.stop ⟨pos, e.stop - pos⟩ = e.stop := by simp only [Extent.stop] at *; omega
  rw [carve, carve, if_neg (by omega), if_pos rfl, stop]
  rfl

theorem covers_carve (below : e.start ≤ pos) (high : pos + len ≤ e.stop) (x : Nat) :
    Covers (carve e pos len) x ↔ e.Contains x ∧ ¬ (pos ≤ x ∧ x < pos + len) := by
  simp only [Extent.stop] at high
  unfold carve
  split <;> split <;> simp [Extent.Contains, Extent.stop] at * <;> omega

theorem total_carve (below : e.start ≤ pos) (high : pos + len ≤ e.stop) :
    total (carve e pos len) + len = e.len := by
  simp only [Extent.stop] at high
  unfold carve
  split <;> split <;> simp [Extent.stop] at * <;> omega

theorem separated_carve (below : e.start ≤ pos) (high : pos + len ≤ e.stop) (positive : 0 < len) :
    Separated e.start (carve e pos len) e.stop := by
  simp only [Extent.stop] at high
  unfold carve
  split <;> split <;> simp only [List.nil_append, List.cons_append, Spaced, Extent.stop, and_true] at * <;> omega

theorem Separated.carve (sep : Separated lo (l ++ e :: m) hi) (below : e.start ≤ pos)
    (high : pos + len ≤ e.stop) (positive : 0 < len) :
    Separated lo (l ++ (carve e pos len ++ m)) hi :=
  Spaced.replace sep (separated_carve below high positive)

end

/-! ## Giving an extent back -/

/-- Put an extent in front of a list that starts behind it, merging it with the
first extent when they touch. -/
def pushFront (b : Extent) : List Extent → List Extent
  | [] => [b]
  | e :: rest => if b.stop = e.start then ⟨b.start, b.len + e.len⟩ :: rest else b :: e :: rest

/-- Insert an extent in address order and merge it with both neighbours. -/
def release (b : Extent) : List Extent → List Extent
  | [] => [b]
  | e :: rest =>
      if b.start < e.start then pushFront b (e :: rest)
      else if e.stop = b.start then pushFront ⟨e.start, e.len + b.len⟩ rest
      else e :: release b rest

section
variable {lo hi : Nat} {b e : Extent} {l m : List Extent}

/-- Extents that end before `b` and do not touch it stay as they are. -/
theorem release_append (before : ∀ f ∈ l, f.stop < b.start) :
    release b (l ++ m) = l ++ release b m := by
  induction l with
  | nil => rfl
  | cons e rest ih =>
    have here := before e (by simp)
    simp only [Extent.stop] at here
    rw [List.cons_append, release, if_neg (by omega), if_neg (by simp only [Extent.stop]; omega),
      ih fun f member => before f (by simp [member])]
    rfl

theorem release_of_before (after : ∀ f ∈ l, b.start < f.start) : release b l = pushFront b l := by
  cases l with
  | nil => rfl
  | cons e rest => rw [release, if_pos (after e (by simp))]

/-- Growing an extent backwards over the one it touches commutes with merging it
into what follows. -/
theorem pushFront_extend {B : Extent} {rest : List Extent} (push : pushFront b m = B :: rest)
    (touch : e.stop = b.start) :
    pushFront ⟨e.start, e.len + b.len⟩ m = ⟨e.start, e.len + B.len⟩ :: rest := by
  simp only [Extent.stop] at touch
  cases m with
  | nil =>
    obtain ⟨rfl, rfl⟩ := List.cons.inj push
    rfl
  | cons f others =>
    rw [pushFront] at push ⊢
    by_cases reach : b.stop = f.start
    · rw [if_pos reach] at push
      obtain ⟨rfl, rfl⟩ := List.cons.inj push
      rw [if_pos (by simp only [Extent.stop] at *; omega), Nat.add_assoc]
    · rw [if_neg reach] at push
      obtain ⟨rfl, rfl⟩ := List.cons.inj push
      rw [if_neg (by simp only [Extent.stop] at *; omega)]

theorem covers_pushFront (b : Extent) (l : List Extent) (x : Nat) :
    Covers (pushFront b l) x ↔ b.Contains x ∨ Covers l x := by
  cases l with
  | nil => simp [pushFront]
  | cons e rest =>
    rw [pushFront]
    split
    next touch =>
      simp only [Extent.stop] at touch
      simp only [covers_cons, ← or_assoc, Extent.Contains]
      exact or_congr_left (by omega)
    next => simp

theorem covers_release (b : Extent) (l : List Extent) (x : Nat) :
    Covers (release b l) x ↔ b.Contains x ∨ Covers l x := by
  induction l with
  | nil => simp [release]
  | cons e rest ih =>
    rw [release]
    split
    next => exact covers_pushFront b (e :: rest) x
    next =>
      split
      next touch =>
        simp only [Extent.stop] at touch
        simp only [covers_pushFront, covers_cons, ← or_assoc, Extent.Contains]
        exact or_congr_left (by omega)
      next => simp only [covers_cons, ih, or_left_comm]

@[simp] theorem total_pushFront (b : Extent) (l : List Extent) :
    total (pushFront b l) = b.len + total l := by
  cases l with
  | nil => rfl
  | cons e rest => rw [pushFront]; split <;> simp [Nat.add_assoc]

@[simp] theorem total_release (b : Extent) (l : List Extent) :
    total (release b l) = b.len + total l := by
  induction l with
  | nil => rfl
  | cons e rest ih =>
    rw [release]
    split
    · simp
    · split <;> simp [ih] <;> omega

theorem Separated.pushFront_cons (low : lo ≤ b.start) (positive : 0 < b.len) (high : b.stop ≤ hi)
    (sep : Separated b.stop l hi) : Separated lo (pushFront b l) hi := by
  cases l with
  | nil => exact ⟨low, positive, high, trivial⟩
  | cons e rest =>
    obtain ⟨start, nonempty, stop, tail⟩ := sep
    rw [pushFront]
    split
    next touch =>
      simp only [Extent.stop] at *
      refine ⟨low, by simp only; omega, by simp only [Extent.stop]; omega, ?_⟩
      exact tail.weaken (by simp only [Extent.stop]; omega)
    next apart =>
      exact ⟨low, positive, high, by omega, nonempty, stop, tail⟩

/-- Releasing an extent that is disjoint from the list keeps the canonical form. -/
theorem Separated.release (sep : Separated lo l hi) (low : lo ≤ b.start) (positive : 0 < b.len)
    (high : b.stop ≤ hi) (apart : ∀ e ∈ l, b.Disjoint e) : Separated lo (release b l) hi := by
  induction l generalizing lo with
  | nil => exact ⟨low, positive, high, trivial⟩
  | cons e rest ih =>
    obtain ⟨start, nonempty, stop, tail⟩ := sep
    have here : b.Disjoint e := apart e (by simp)
    simp only [Extent.Disjoint, Extent.stop] at here stop high tail
    rw [Library.release]
    split
    next before =>
      exact Separated.pushFront_cons low positive high
        ⟨by simp only [Extent.stop]; omega, nonempty, stop, tail⟩
    next after =>
      split
      next touch =>
        simp only [Extent.stop] at touch
        refine Separated.pushFront_cons start (by simp only; omega) (by simp only [Extent.stop]; omega) ?_
        have beyond : Separated (b.start + b.len) rest hi := by
          cases rest with
          | nil => trivial
          | cons f others =>
            have := apart f (by simp)
            simp only [Extent.Disjoint, Extent.stop, Spaced] at this tail ⊢
            exact ⟨by omega, tail.2⟩
        simpa only [Extent.stop, ← touch, Nat.add_assoc] using beyond
      next gap =>
        simp only [Extent.stop] at gap
        refine ⟨start, nonempty, stop, ih tail (by simp only [Extent.stop]; omega) ?_⟩
        exact fun f member => apart f (by simp [member])

end

end Cs544.Library
