import Mathlib.Data.List.Nodup
import Mathlib.Data.List.Sort

/-! Queues with a list for each level and a bitmap of the levels in use.

The lists of all levels below a bound, one behind the other, are a single list. It is sorted
by level and keeps elements of one level in the order they were added in. The bitmap also has
the bit of the bound, where a search for the first bit ends.
-/

set_option autoImplicit false

namespace Cs544.Library

variable {α : Type}

/-! ## Insertion into a sorted list -/

section
variable (level : α → Nat)

/-- Behind the elements of the same level. -/
def insertBehind (x : α) (l : List α) : List α := l.orderedInsert (fun x y => level x < level y) x

/-- Before the elements of the same level. -/
def insertBefore (x : α) (l : List α) : List α := l.orderedInsert (fun x y => level x ≤ level y) x

end

section
variable {level : α → Nat} {l front back : List α} {x y : α}

theorem orderedInsert_append {r : α → α → Prop} [DecidableRel r] (front' : ∀ y ∈ front, ¬ r x y)
    (back' : ∀ y ∈ back, r x y) : (front ++ back).orderedInsert r x = front ++ x :: back := by
  induction front with
  | nil =>
    cases back with
    | nil => rfl
    | cons y back => exact List.orderedInsert_cons_of_le r back (back' y List.mem_cons_self)
  | cons y front ih =>
    have later := ih fun z member => front' z (List.mem_cons_of_mem y member)
    rw [List.cons_append, List.orderedInsert_of_not_le r _ (front' y List.mem_cons_self), later, List.cons_append]

theorem perm_insertBehind : (insertBehind level x l).Perm (x :: l) := List.perm_orderedInsert _ x l

theorem perm_insertBefore : (insertBefore level x l).Perm (x :: l) := List.perm_orderedInsert _ x l

@[simp] theorem mem_insertBehind : y ∈ insertBehind level x l ↔ y = x ∨ y ∈ l := List.mem_orderedInsert _

theorem insertBehind_eq_cons (least : ∀ y ∈ l, level x < level y) : insertBehind level x l = x :: l := by
  cases l with
  | nil => rfl
  | cons y rest => exact List.orderedInsert_cons_of_le _ rest (least y List.mem_cons_self)

theorem sorted_insertBehind (sorted : l.Pairwise fun x y => level x ≤ level y) :
    (insertBehind level x l).Pairwise fun x y => level x ≤ level y := by
  induction l with
  | nil => exact List.pairwise_singleton _ x
  | cons z rest ih =>
    obtain ⟨least, rest'⟩ := List.pairwise_cons.mp sorted
    rw [insertBehind, List.orderedInsert_cons]
    split_ifs with below
    · refine List.pairwise_cons.mpr ⟨fun y member => ?_, sorted⟩
      rcases List.mem_cons.mp member with rfl | member
      · exact Nat.le_of_lt below
      · exact Nat.le_trans (Nat.le_of_lt below) (least y member)
    · refine List.pairwise_cons.mpr ⟨fun y member => ?_, ih rest'⟩
      rcases mem_insertBehind.mp member with rfl | member
      · exact Nat.le_of_not_lt below
      · exact least y member

/-- What is before the first occurrence of an element. -/
theorem takeWhile_ne [DecidableEq α] (absent : x ∉ front) : (front ++ x :: back).takeWhile (· ≠ x) = front := by
  have before (y : α) (member : y ∈ front) : decide (y ≠ x) = true :=
    decide_eq_true fun same => absent (by rwa [← same])
  rw [List.takeWhile_append_of_pos before, List.takeWhile_cons_of_neg (by simp), List.append_nil]

/-- An element that is inserted gets ahead of another one only if it belongs there. -/
theorem takeWhile_orderedInsert [DecidableEq α] {r : α → α → Prop} [DecidableRel r] {p : α} (apart : x ≠ p)
    (absent : p ∉ front) : ((front ++ p :: back).orderedInsert r x).takeWhile (· ≠ p) = front ∨
      ((front ++ p :: back).orderedInsert r x).takeWhile (· ≠ p) = front.orderedInsert r x ∧
        ∃ y ∈ p :: front, r x y := by
  have stop (l : List α) : (p :: l).takeWhile (· ≠ p) = [] := by simp
  have pass (y : α) (other : y ≠ p) (l : List α) : (y :: l).takeWhile (· ≠ p) = y :: l.takeWhile (· ≠ p) := by
    simp [other]
  induction front with
  | nil =>
    rw [List.nil_append, List.orderedInsert_cons]
    split_ifs with before
    · rw [pass x apart, stop]
      exact .inr ⟨rfl, p, List.mem_cons_self, before⟩
    · exact .inl (stop _)
  | cons y front ih =>
    obtain ⟨other, absent'⟩ := not_or.mp (List.mem_cons.not.mp absent)
    rw [List.cons_append, List.orderedInsert_cons, List.orderedInsert_cons]
    split_ifs with before
    · rw [pass x apart, pass y (Ne.symm other), takeWhile_ne absent']
      exact .inr ⟨rfl, y, by simp, before⟩
    · rw [pass y (Ne.symm other)]
      rcases ih absent' with same | ⟨same, z, member, before'⟩
      · exact .inl (by rw [same])
      · refine .inr ⟨by rw [same], z, ?_, before'⟩
        rcases List.mem_cons.mp member with rfl | member
        · exact List.mem_cons_self
        · simp [member]

/-- An element that a filter drops may be inserted before it. -/
theorem filter_orderedInsert {r : α → α → Prop} [DecidableRel r] {P : α → Bool} (drop : P x = false) :
    (l.orderedInsert r x).filter P = l.filter P := by
  rw [List.orderedInsert_eq_take_drop, List.filter_append, List.filter_cons_of_neg (by simp [drop]),
    ← List.filter_append, List.takeWhile_append_dropWhile]

end

/-! ## The queue -/

structure BucketQueue (α : Type) where
  queue : Nat → List α
  bitmap : Nat → Bool

namespace BucketQueue

/-- No level is in use. The bit of the bound is set for good. -/
def empty (bound : Nat) : BucketQueue α := ⟨fun _ => [], fun k => k = bound⟩

/-- The level of the first bit that is set. -/
def firstBit (bound : Nat) (b : BucketQueue α) : Nat := ((List.range (bound + 1)).find? b.bitmap).getD (bound + 1)

def addHead (k : Nat) (x : α) (b : BucketQueue α) : BucketQueue α :=
  ⟨Function.update b.queue k (x :: b.queue k), Function.update b.bitmap k true⟩

def addTail (k : Nat) (x : α) (b : BucketQueue α) : BucketQueue α :=
  ⟨Function.update b.queue k (b.queue k ++ [x]), Function.update b.bitmap k true⟩

/-- The elements in order. -/
def toList (bound : Nat) (b : BucketQueue α) : List α := (List.range bound).flatMap b.queue

/-- The first element that passes a test, from the first bit on. -/
def find (bound : Nat) (p : α → Bool) (b : BucketQueue α) : Option α :=
  ((List.range bound).filter b.bitmap).findSome? fun k => (b.queue k).find? p

section
variable [DecidableEq α]

/-- An element is taken out of the list it is in, and the bit of its level is cleared if
nothing is left there. -/
def remove (k : Nat) (x : α) (b : BucketQueue α) : BucketQueue α :=
  let queue := fun j => (b.queue j).erase x
  ⟨queue, if queue k = [] then Function.update b.bitmap k false else b.bitmap⟩

/-- An element goes to the head of its list. -/
def moveHead (k : Nat) (x : α) (b : BucketQueue α) : BucketQueue α :=
  let queue := fun j => (b.queue j).erase x
  ⟨Function.update queue k (x :: queue k), b.bitmap⟩

/-- An element goes to the tail of its list. -/
def moveTail (k : Nat) (x : α) (b : BucketQueue α) : BucketQueue α :=
  let queue := fun j => (b.queue j).erase x
  ⟨Function.update queue k (queue k ++ [x]), b.bitmap⟩

end

/-- Every element is in the list of its level, and the bitmap has exactly the levels that
are in use. -/
structure WellFormed (level : α → Nat) (bound : Nat) (b : BucketQueue α) : Prop where
  delimiter : b.bitmap bound = true
  bit : ∀ k < bound, b.bitmap k = true ↔ b.queue k ≠ []
  level : ∀ k < bound, ∀ x ∈ b.queue k, level x = k
  nodup : ∀ k < bound, (b.queue k).Nodup

variable {level : α → Nat} {bound k : Nat} {b : BucketQueue α} {x y : α} {p : α → Bool}

/-! ### One list -/

theorem wellFormed_empty : (empty bound : BucketQueue α).WellFormed level bound where
  delimiter := decide_eq_true rfl
  bit k below := by simp [empty, Nat.ne_of_lt below]
  level _ _ _ member := nomatch member
  nodup _ _ := List.nodup_nil

theorem toList_empty : (empty bound : BucketQueue α).toList bound = [] := by
  simp [toList, empty]

/-- The elements before those of a level, and the ones behind them. -/
theorem toList_split (queue : Nat → List α) (l : List α) (below : k < bound) :
    (List.range bound).flatMap (Function.update queue k l) =
      (List.range k).flatMap queue ++ l ++ (List.range' (k + 1) (bound - (k + 1))).flatMap queue := by
  have range : List.range bound = List.range k ++ k :: List.range' (k + 1) (bound - (k + 1)) := by
    rw [List.range_eq_range', List.range_eq_range', show bound = k + (bound - (k + 1) + 1) by omega,
      ← List.range'_append_1, Nat.zero_add, List.range'_succ]
    congr 3
    omega
  have front : (List.range k).flatMap (Function.update queue k l) = (List.range k).flatMap queue :=
    List.flatMap_congr fun j member => Function.update_of_ne (Nat.ne_of_lt (List.mem_range.mp member)) ..
  have back : (List.range' (k + 1) (bound - (k + 1))).flatMap (Function.update queue k l) =
      (List.range' (k + 1) (bound - (k + 1))).flatMap queue :=
    List.flatMap_congr fun j member => Function.update_of_ne (by
      have above := List.left_le_of_mem_range' member
      omega) ..
  rw [range, List.flatMap_append, List.flatMap_cons, front, back, Function.update_self, List.append_assoc]

namespace WellFormed

theorem mem_toList (formed : b.WellFormed level bound) :
    x ∈ b.toList bound ↔ level x < bound ∧ x ∈ b.queue (level x) := by
  rw [toList, List.mem_flatMap]
  constructor
  · rintro ⟨k, below, member⟩
    have below := List.mem_range.mp below
    rw [formed.level k below x member]
    exact ⟨below, member⟩
  · rintro ⟨below, member⟩
    exact ⟨level x, List.mem_range.mpr below, member⟩

theorem lt_bound (formed : b.WellFormed level bound) (member : x ∈ b.toList bound) : level x < bound :=
  (formed.mem_toList.mp member).1

/-- An element is in no other list than that of its level. -/
theorem not_mem (formed : b.WellFormed level bound) (absent : x ∉ b.toList bound) (below : k < bound) :
    x ∉ b.queue k := by
  intro member
  have same := formed.level k below x member
  exact absent (formed.mem_toList.mpr ⟨by omega, by rwa [same]⟩)

theorem split (formed : b.WellFormed level bound) (below : k < bound) : ∃ front back,
    (∀ y ∈ front, level y < k) ∧ (∀ y ∈ back, k < level y) ∧
    ∀ l, (List.range bound).flatMap (Function.update b.queue k l) = front ++ l ++ back := by
  refine ⟨(List.range k).flatMap b.queue, (List.range' (k + 1) (bound - (k + 1))).flatMap b.queue, ?_, ?_,
    fun l => toList_split b.queue l below⟩
  · intro y member
    obtain ⟨j, before, member⟩ := List.mem_flatMap.mp member
    have before := List.mem_range.mp before
    rw [formed.level j (by omega) y member]
    exact before
  · intro y member
    obtain ⟨j, range, member⟩ := List.mem_flatMap.mp member
    have range := List.mem_range'_1.mp range
    rw [formed.level j (by omega) y member]
    omega

theorem toList_eq (formed : b.WellFormed level bound) (below : k < bound) : ∃ front back,
    (∀ y ∈ front, level y < k) ∧ (∀ y ∈ back, k < level y) ∧ b.toList bound = front ++ b.queue k ++ back ∧
    ∀ l, (List.range bound).flatMap (Function.update b.queue k l) = front ++ l ++ back := by
  obtain ⟨front, back, before, behind, whole⟩ := formed.split below
  refine ⟨front, back, before, behind, ?_, whole⟩
  rw [← whole, Function.update_eq_self, toList]

theorem nodup_toList (formed : b.WellFormed level bound) : (b.toList bound).Nodup := by
  refine List.nodup_flatMap.mpr ⟨fun k below => formed.nodup k (List.mem_range.mp below), ?_⟩
  refine List.Pairwise.imp_of_mem (fun {i j} first second apart => ?_) (List.pairwise_lt_range (n := bound))
  intro x left right
  have same := formed.level i (List.mem_range.mp first) x left
  rw [formed.level j (List.mem_range.mp second) x right] at same
  omega

theorem sorted_toList (formed : b.WellFormed level bound) :
    (b.toList bound).Pairwise fun x y => level x ≤ level y := by
  refine List.pairwise_flatMap.mpr ⟨fun k below => ?_, ?_⟩
  · refine List.pairwise_of_forall_mem_list fun x left y right => ?_
    rw [formed.level k (List.mem_range.mp below) x left, formed.level k (List.mem_range.mp below) y right]
  · refine List.Pairwise.imp_of_mem (fun {i j} first second apart x left y right => ?_)
      (List.pairwise_lt_range (n := bound))
    rw [formed.level i (List.mem_range.mp first) x left, formed.level j (List.mem_range.mp second) y right]
    omega

/-- Only the levels of the elements count. -/
theorem congr {level' : α → Nat} (formed : b.WellFormed level bound) (same : ∀ x ∈ b.toList bound, level' x = level x) :
    b.WellFormed level' bound where
  delimiter := formed.delimiter
  bit := formed.bit
  level k below x member := by
    have here := formed.level k below x member
    rw [same x (formed.mem_toList.mpr ⟨by omega, by rwa [here]⟩), here]
  nodup := formed.nodup

/-! ### The first bit -/

theorem le_firstBit (formed : b.WellFormed level bound) {m : Nat} :
    m ≤ b.firstBit bound ↔ m ≤ bound ∧ ∀ x ∈ b.toList bound, m ≤ level x := by
  cases found : (List.range (bound + 1)).find? b.bitmap with
  | none =>
    have clear := List.find?_eq_none.mp found bound (by simp)
    exact absurd formed.delimiter clear
  | some first =>
    obtain ⟨set, range, before⟩ := List.find?_range_eq_some.mp found
    have range := List.mem_range.mp range
    rw [firstBit, found, Option.getD_some]
    constructor
    · intro least
      refine ⟨by omega, fun x member => ?_⟩
      obtain ⟨below, member⟩ := formed.mem_toList.mp member
      by_contra above
      have clear := before (level x) (by omega)
      have set := (formed.bit (level x) below).mpr (List.ne_nil_of_mem member)
      rw [set] at clear
      cases clear
    · rintro ⟨inside, least⟩
      by_cases last : first = bound
      · rwa [last]
      · have below : first < bound := by omega
        obtain ⟨x, rest, queue⟩ := List.exists_cons_of_ne_nil ((formed.bit first below).mp set)
        have member : x ∈ b.queue first := by simp [queue]
        have here := formed.level first below x member
        rw [← here]
        exact least x (formed.mem_toList.mpr ⟨by omega, by rwa [here]⟩)

theorem firstBit_le (formed : b.WellFormed level bound) : b.firstBit bound ≤ bound :=
  (formed.le_firstBit.mp (Nat.le_refl _)).1

theorem firstBit_le_level (formed : b.WellFormed level bound) (member : x ∈ b.toList bound) :
    b.firstBit bound ≤ level x := (formed.le_firstBit.mp (Nat.le_refl _)).2 x member

/-- The first bit is that of the bound exactly if nothing is in the queue. -/
theorem firstBit_eq_bound (formed : b.WellFormed level bound) : b.firstBit bound = bound ↔ b.toList bound = [] := by
  constructor
  · intro last
    refine List.eq_nil_iff_forall_not_mem.mpr fun x member => ?_
    have below := formed.lt_bound member
    have least := formed.firstBit_le_level member
    omega
  · intro none
    refine Nat.le_antisymm formed.firstBit_le (formed.le_firstBit.mpr ⟨Nat.le_refl _, ?_⟩)
    rw [none]
    exact fun x member => nomatch member

/-- One more element can only lower the first bit. -/
theorem firstBit_cons {c : BucketQueue α} (formed : b.WellFormed level bound) (more : c.WellFormed level bound)
    (perm : (c.toList bound).Perm (x :: b.toList bound)) :
    c.firstBit bound = min (level x) (b.firstBit bound) := by
  refine eq_of_forall_le_iff fun m => ?_
  rw [more.le_firstBit, Nat.le_min, formed.le_firstBit]
  simp only [perm.mem_iff, List.forall_mem_cons]
  exact and_left_comm

/-- The head of the first list in use is the first element. -/
theorem head (formed : b.WellFormed level bound) (first : b.firstBit bound < bound) :
    ∃ x rest tail, b.queue (b.firstBit bound) = x :: rest ∧ b.toList bound = x :: tail ∧ level x = b.firstBit bound := by
  obtain ⟨front, back, before, _, whole, _⟩ := formed.toList_eq first
  have set : b.bitmap (b.firstBit bound) = true := by
    cases found : (List.range (bound + 1)).find? b.bitmap with
    | none => exact absurd formed.delimiter (List.find?_eq_none.mp found bound (by simp))
    | some k =>
      rw [firstBit, found]
      exact (List.find?_range_eq_some.mp found).1
  obtain ⟨x, rest, queue⟩ := List.exists_cons_of_ne_nil ((formed.bit _ first).mp set)
  have nothing : front = [] := by
    refine List.eq_nil_iff_forall_not_mem.mpr fun y member => ?_
    have below := before y member
    have least := formed.firstBit_le_level (x := y) (by simp [whole, member])
    omega
  refine ⟨x, rest, rest ++ back, queue, ?_, formed.level _ first x (by simp [queue])⟩
  rw [whole, nothing, queue, List.nil_append, List.cons_append]

theorem find_eq (formed : b.WellFormed level bound) (p : α → Bool) : b.find bound p = (b.toList bound).find? p := by
  rw [find, toList, List.find?_flatMap]
  have scan (l : List Nat) (inside : ∀ k ∈ l, k < bound) :
      (l.filter b.bitmap).findSome? (fun k => (b.queue k).find? p) = l.findSome? fun k => (b.queue k).find? p := by
    induction l with
    | nil => rfl
    | cons k rest ih =>
      have later := ih fun j member => inside j (List.mem_cons_of_mem k member)
      rw [List.filter_cons]
      split_ifs with set
      · rw [List.findSome?_cons, List.findSome?_cons, later]
      · have queue : b.queue k = [] := by
          by_contra used
          exact set ((formed.bit k (inside k List.mem_cons_self)).mpr used)
        rw [List.findSome?_cons, queue, List.find?_nil, later]
  exact scan _ fun k => List.mem_range.mp

/-! ### Changing a list -/

/-- The list of one level is written, and the bit of the level with it. -/
theorem replace (formed : b.WellFormed level bound) (below : k < bound) {l : List α} {bitmap : Nat → Bool}
    (levels : ∀ y ∈ l, level y = k) (nodup : l.Nodup) (bit : bitmap k = true ↔ l ≠ [])
    (others : ∀ j, j ≠ k → bitmap j = b.bitmap j) :
    (BucketQueue.mk (Function.update b.queue k l) bitmap).WellFormed level bound where
  delimiter := (others bound (by omega)).trans formed.delimiter
  bit j inside := by
    dsimp only
    by_cases here : j = k
    · rw [here, Function.update_self]
      exact bit
    · rw [Function.update_of_ne here, others j here]
      exact formed.bit j inside
  level j inside y member := by
    dsimp only at member
    by_cases here : j = k
    · rw [here, Function.update_self] at member
      rw [here]
      exact levels y member
    · rw [Function.update_of_ne here] at member
      exact formed.level j inside y member
  nodup j inside := by
    dsimp only
    by_cases here : j = k
    · rw [here, Function.update_self]
      exact nodup
    · rw [Function.update_of_ne here]
      exact formed.nodup j inside

theorem addTail (formed : b.WellFormed level bound) (absent : x ∉ b.toList bound) (below : level x < bound) :
    (b.addTail (level x) x).WellFormed level bound ∧
      (b.addTail (level x) x).toList bound = insertBehind level x (b.toList bound) := by
  have fresh := formed.not_mem absent below
  constructor
  · refine formed.replace below (fun y member => ?_) ?_ (by simp) fun j other => Function.update_of_ne other ..
    · rcases List.mem_append.mp member with member | member
      · exact formed.level _ below y member
      · rw [List.mem_singleton.mp member]
    · rw [List.nodup_append_comm]
      exact List.nodup_cons.mpr ⟨fresh, formed.nodup _ below⟩
  · obtain ⟨front, back, before, behind, whole, written⟩ := formed.toList_eq below
    rw [toList, BucketQueue.addTail, written, whole, insertBehind, orderedInsert_append (fun y member => ?_) behind]
    · simp only [List.append_assoc, List.singleton_append]
    · rcases List.mem_append.mp member with member | member
      · exact Nat.lt_asymm (before y member)
      · rw [formed.level _ below y member]
        exact Nat.lt_irrefl _

theorem addHead (formed : b.WellFormed level bound) (absent : x ∉ b.toList bound) (below : level x < bound) :
    (b.addHead (level x) x).WellFormed level bound ∧
      (b.addHead (level x) x).toList bound = insertBefore level x (b.toList bound) := by
  have fresh := formed.not_mem absent below
  constructor
  · refine formed.replace below (fun y member => ?_) (List.nodup_cons.mpr ⟨fresh, formed.nodup _ below⟩) (by simp)
      fun j other => Function.update_of_ne other ..
    rcases List.mem_cons.mp member with rfl | member
    · rfl
    · exact formed.level _ below y member
  · obtain ⟨front, back, before, behind, whole, written⟩ := formed.toList_eq below
    have placed := orderedInsert_append (r := fun x y => level x ≤ level y)
      (fun y member => Nat.not_le_of_lt (before y member)) fun y (member : y ∈ b.queue (level x) ++ back) => by
        rcases List.mem_append.mp member with member | member
        · exact Nat.le_of_eq (formed.level _ below y member).symm
        · exact Nat.le_of_lt (behind y member)
    rw [toList, BucketQueue.addHead, written, whole, insertBefore, List.append_assoc, List.append_assoc, placed,
      List.cons_append]

section
variable [DecidableEq α]

/-- Only the list of its own level changes when an element is taken out. -/
theorem erase_queue (formed : b.WellFormed level bound) {j : Nat} (inside : j < bound) :
    (b.queue j).erase x = Function.update b.queue (level x) ((b.queue (level x)).erase x) j := by
  by_cases here : j = level x
  · rw [here, Function.update_self]
  · rw [Function.update_of_ne here]
    exact List.erase_of_not_mem fun member => here (formed.level j inside x member).symm

theorem toList_erase (formed : b.WellFormed level bound) (below : level x < bound) {bitmap : Nat → Bool} :
    (BucketQueue.mk (fun j => (b.queue j).erase x) bitmap).toList bound = (b.toList bound).erase x := by
  obtain ⟨front, back, before, behind, whole, written⟩ := formed.toList_eq below
  have same : (List.range bound).flatMap (fun j => (b.queue j).erase x) =
      (List.range bound).flatMap (Function.update b.queue (level x) ((b.queue (level x)).erase x)) :=
    List.flatMap_congr fun j inside => formed.erase_queue (List.mem_range.mp inside)
  have front' : x ∉ front := fun member => Nat.lt_irrefl _ (before x member)
  have back' : x ∉ back := fun member => Nat.lt_irrefl _ (behind x member)
  rw [toList, same, written, whole, List.append_assoc, List.append_assoc, List.erase_append_right _ front']
  by_cases member : x ∈ b.queue (level x)
  · rw [List.erase_append_left _ member]
  · rw [List.erase_append_right _ member, List.erase_of_not_mem member, List.erase_of_not_mem back']

theorem erase (formed : b.WellFormed level bound) (below : level x < bound) {bitmap : Nat → Bool}
    (bit : bitmap (level x) = true ↔ (b.queue (level x)).erase x ≠ [])
    (others : ∀ j, j ≠ level x → bitmap j = b.bitmap j) :
    (BucketQueue.mk (fun j => (b.queue j).erase x) bitmap).WellFormed level bound := by
  have replaced := formed.replace below (fun y member => formed.level _ below y (List.mem_of_mem_erase member))
    ((formed.nodup _ below).erase x) bit others
  refine ⟨replaced.delimiter, fun j inside => ?_, fun j inside => ?_, fun j inside => ?_⟩
  · dsimp only
    rw [formed.erase_queue inside]
    exact replaced.bit j inside
  · dsimp only
    rw [formed.erase_queue inside]
    exact replaced.level j inside
  · dsimp only
    rw [formed.erase_queue inside]
    exact replaced.nodup j inside

theorem remove (formed : b.WellFormed level bound) (below : level x < bound) :
    (b.remove (level x) x).WellFormed level bound ∧
      (b.remove (level x) x).toList bound = (b.toList bound).erase x := by
  refine ⟨formed.erase below ?_ fun j other => ?_, formed.toList_erase below⟩
  · by_cases nothing : (b.queue (level x)).erase x = []
    · simp [nothing]
    · rw [if_neg nothing, formed.bit _ below]
      refine iff_of_true (fun none => nothing ?_) nothing
      rw [none, List.erase_nil]
  · split_ifs
    · exact Function.update_of_ne other ..
    · rfl

/-- The bit of a level stays as it is when an element comes back. -/
theorem bitmap_remove (formed : b.WellFormed level bound) (member : x ∈ b.toList bound) :
    Function.update (b.remove (level x) x).bitmap (level x) true = b.bitmap := by
  obtain ⟨below, member⟩ := formed.mem_toList.mp member
  funext j
  by_cases here : j = level x
  · rw [here, Function.update_self, (formed.bit _ below).mpr (List.ne_nil_of_mem member)]
  · rw [Function.update_of_ne here, BucketQueue.remove]
    dsimp only
    split_ifs
    · rw [Function.update_of_ne here]
    · rfl

/-- To move an element is to take it out and to add it again. -/
theorem moveTail_eq (formed : b.WellFormed level bound) (member : x ∈ b.toList bound) :
    b.moveTail (level x) x = (b.remove (level x) x).addTail (level x) x := by
  rw [moveTail, BucketQueue.addTail, formed.bitmap_remove member]
  rfl

theorem moveHead_eq (formed : b.WellFormed level bound) (member : x ∈ b.toList bound) :
    b.moveHead (level x) x = (b.remove (level x) x).addHead (level x) x := by
  rw [moveHead, BucketQueue.addHead, formed.bitmap_remove member]
  rfl

end

end WellFormed

end BucketQueue

end Cs544.Library
