import Cs544.Slob.Page

/-! The free list threaded through the free units of a page.

`FreeSeg` reads a memory as a list of extents; the lemmas below say what each
write of `slob_page_alloc` and `slob_free` does to that list. Nothing here
depends on how the extents were obtained, only that they do not overlap.
-/

set_option autoImplicit false

namespace Cs544.Slob

open Cs544.Library

/-- Following `slob_next` from `cur` visits exactly the blocks `l` and then
arrives at `stop`. -/
def FreeSeg (a : Arch) (mem : Memory) : Nat → List Extent → Nat → Prop
  | cur, [], stop => cur = stop
  | cur, e :: rest, stop => e.start = cur ∧ ∃ next, Encodes a mem e next ∧ FreeSeg a mem next rest stop

/-- The block a list ends with, as the `prev` pointer of the block behind it. -/
def lastStart (l : List Extent) : Option Nat := l.getLast?.map Extent.start

@[simp] theorem lastStart_nil : lastStart [] = none := rfl

@[simp] theorem lastStart_concat (l : List Extent) (e : Extent) : lastStart (l ++ [e]) = some e.start := by
  simp [lastStart]

/-- The blocks visited from `cur` on until `slob_last`, as the loops over a page see them. -/
def freeBlocks (a : Arch) (mem : Memory) : Nat → Nat → List Extent
  | 0, _ => []
  | fuel + 1, cur =>
      ⟨cur, (slobUnits mem cur).toNat⟩ ::
        if slobLast a mem cur then [] else freeBlocks a mem fuel (slobNext a mem cur)

/-- The free list of a page; `sp->free` is the end of the page when it is full. -/
def freeList (a : Arch) (h : Heap) (sp : Nat) : List Extent :=
  if (h.page sp).free = a.pageEnd sp then [] else freeBlocks a h.mem a.pageUnits (h.page sp).free

variable {a : Arch} {mem mem' : Memory} {p cur free mid stop target : Nat} {e : Extent}
  {l m : List Extent}

namespace FreeSeg

theorem append_iff : FreeSeg a mem cur (l ++ m) stop ↔
    ∃ mid, FreeSeg a mem cur l mid ∧ FreeSeg a mem mid m stop := by
  induction l generalizing cur with
  | nil => simp [FreeSeg]
  | cons e rest ih =>
    simp only [List.cons_append, FreeSeg, ih]
    constructor
    · rintro ⟨start, next, enc, mid, first, second⟩
      exact ⟨mid, ⟨start, next, enc, first⟩, second⟩
    · rintro ⟨mid, ⟨start, next, enc, first⟩, second⟩
      exact ⟨start, next, enc, mid, first, second⟩

theorem frame {lo hi gap : Nat} (seg : FreeSeg a mem cur l stop) (sep : Spaced gap lo l hi)
    (same : ∀ x, Covers l x → mem' x = mem x) : FreeSeg a mem' cur l stop := by
  induction l generalizing cur lo with
  | nil => exact seg
  | cons e rest ih =>
    obtain ⟨start, next, enc, tail⟩ := seg
    refine ⟨start, next, enc.frame sep.2.1 fun x inside => same x (by simp [inside]), ?_⟩
    exact ih tail sep.2.2.2 fun x covered => same x (by simp [covered])

theorem cons_inv (seg : FreeSeg a mem cur (e :: l) stop) :
    cur = e.start ∧ slobUnits mem cur = e.len ∧ FreeSeg a mem (slobNext a mem cur) l stop := by
  obtain ⟨rfl, next, enc, tail⟩ := seg
  exact ⟨rfl, enc.units, enc.next ▸ tail⟩

theorem next_bounds {lo hi gap : Nat} (seg : FreeSeg a mem cur l hi) (sep : Spaced gap lo l hi)
    (le : lo ≤ hi) : lo ≤ cur ∧ cur ≤ hi := by
  cases l with
  | nil => exact ⟨seg ▸ le, seg.le⟩
  | cons e rest =>
    obtain ⟨low, _, high, _⟩ := sep
    have here := seg.1
    simp only [Extent.stop] at high
    omega

/-- Writing a block between two parts of a list links them through it. -/
theorem write {next : Nat} (first : FreeSeg a mem cur l e.start) (tail : FreeSeg a mem next m stop)
    (order : Spaced 0 (a.pageStart p) (l ++ e :: m) (a.pageEnd p)) (after : e.start < next)
    (before : next ≤ a.pageEnd p) :
    FreeSeg a (setSlob a mem e.start e.len next) cur (l ++ e :: m) stop := by
  obtain ⟨left, apart, low, _, positive, high, right⟩ := Spaced.append_iff.mp order
  refine append_iff.mpr ⟨e.start, first.frame left fun x covered => ?_, rfl, next, ?_,
    tail.frame right fun x covered => ?_⟩
  · refine setSlob_of_not_contains positive fun inside => ?_
    obtain ⟨f, member, hit⟩ := covered
    have := apart f member
    simp only [Extent.Contains, Extent.stop] at *
    omega
  · exact setSlob_encodes low positive high (by omega) before
  · refine setSlob_of_not_contains positive fun inside => ?_
    have := (right.covers_bounds covered).1
    simp only [Extent.Contains, Extent.stop] at *
    omega

end FreeSeg

/-- `slob_last` holds exactly of the block that links to the end of the page. -/
theorem slobLast_iff (seg : FreeSeg a mem cur (e :: l) (a.pageEnd p))
    (sep : Spaced 0 (a.pageStart p) (e :: l) (a.pageEnd p)) : slobLast a mem cur = true ↔ l = [] := by
  obtain ⟨_, _, tail⟩ := seg.cons_inv
  have positive := a.pageUnits_pos
  rw [slobLast, decide_eq_true_iff]
  cases l with
  | nil =>
    rw [show slobNext a mem cur = a.pageEnd p from tail, Arch.pageEnd]
    simp
  | cons f rest =>
    -- The next block starts strictly inside the page, so its offset is not zero.
    obtain ⟨start, len, _, low, _, high, _⟩ := sep
    have here := tail.cons_inv.1
    simp only [Extent.stop] at low high
    rw [here]
    have inside := Nat.div_add_mod f.start a.pageUnits
    have number := Arch.pageOf_eq (a := a) (p := p) (s := f.start) (by omega) (by omega)
    simp only [Arch.pageOf] at number
    rw [number, Nat.mul_comm] at inside
    simp only [Arch.pageStart] at start
    simp only [reduceCtorEq, iff_false]
    omega

theorem freeBlocks_eq {fuel : Nat} (seg : FreeSeg a mem cur (e :: l) (a.pageEnd p))
    (sep : Spaced 0 (a.pageStart p) (e :: l) (a.pageEnd p)) (enough : l.length < fuel) :
    freeBlocks a mem fuel cur = e :: l := by
  induction l generalizing e cur fuel with
  | nil =>
    obtain ⟨rfl, size, _⟩ := seg.cons_inv
    obtain ⟨fuel, rfl⟩ : ∃ k, fuel = k + 1 := ⟨fuel - 1, by omega⟩
    rw [freeBlocks, if_pos ((slobLast_iff seg sep).mpr rfl), size]
    simp
  | cons f rest ih =>
    have last := slobLast_iff seg sep
    obtain ⟨rfl, size, tail⟩ := seg.cons_inv
    obtain ⟨fuel, rfl⟩ : ∃ k, fuel = k + 1 := ⟨fuel - 1, by omega⟩
    have order : Spaced 0 (a.pageStart p) (f :: rest) (a.pageEnd p) :=
      sep.2.2.2.weaken (by have := sep.1; simp only [Extent.stop]; omega)
    rw [freeBlocks, if_neg (by simp [last]), size, ih tail order (by simpa using enough)]
    simp

/-! ## Relinking and unlinking -/

/-- Redirecting the link into the rest of the list, wherever it is kept. -/
theorem relink_spec (seg : FreeSeg a mem free l mid)
    (sep : Spaced 0 (a.pageStart p) l (a.pageEnd p)) (after : ∀ f ∈ l, f.start < target)
    (before : target ≤ a.pageEnd p) :
    FreeSeg a (relink a mem free (lastStart l) target).1 (relink a mem free (lastStart l) target).2
        l target ∧
      ∀ x, ¬ Covers l x → (relink a mem free (lastStart l) target).1 x = mem x := by
  rcases List.eq_nil_or_concat' l with rfl | ⟨init, q, rfl⟩
  · exact ⟨rfl, fun _ _ => rfl⟩
  · obtain ⟨mid', first, rfl, next, enc, _⟩ := FreeSeg.append_iff.mp seg
    obtain ⟨low, positive, high⟩ := sep.bounds (e := q) (by simp)
    simp only [lastStart_concat, relink, enc.units]
    refine ⟨first.write rfl sep (after q (by simp)) before, fun x outside => ?_⟩
    refine setSlob_of_not_contains positive fun inside => outside ?_
    simp [inside]

/-- Taking the front of a block off the list. -/
theorem unlink_spec {units : Nat} (seg : FreeSeg a mem free (l ++ e :: m) (a.pageEnd p))
    (sep : Spaced 0 (a.pageStart p) (l ++ e :: m) (a.pageEnd p)) (positive : 0 < units)
    (fits : units ≤ e.len) :
    FreeSeg a (unlink a mem free (lastStart l) e.start e.len units).1
        (unlink a mem free (lastStart l) e.start e.len units).2
        (l ++ (carve e e.start units ++ m)) (a.pageEnd p) ∧
      ∀ x, ¬ Covers (l ++ [e]) x →
        (unlink a mem free (lastStart l) e.start e.len units).1 x = mem x := by
  obtain ⟨mid, first, here, next, enc, tail⟩ := FreeSeg.append_iff.mp seg
  obtain ⟨left, apart, le, low, nonempty, high, right⟩ := Spaced.append_iff.mp sep
  have starts : ∀ f ∈ l, f.start < e.start := fun f member => by
    have := apart f member
    have := (left.bounds member).2.1
    simp only [Extent.stop] at *
    omega
  -- What follows the block, and that redirecting the link leaves it alone.
  have rest {mem' : Memory} (same : ∀ x, ¬ Covers (l ++ [e]) x → mem' x = mem x) :
      FreeSeg a mem' next m (a.pageEnd p) := by
    refine tail.frame right fun x covered => same x ?_
    have bound := (right.covers_bounds covered).1
    simp only [covers_append, covers_cons, covers_nil, or_false, not_or, Extent.stop] at bound ⊢
    constructor
    · rintro ⟨f, member, hit⟩
      have := apart f member
      simp only [Extent.Contains, Extent.stop] at *
      omega
    · intro hit
      simp only [Extent.Contains] at hit
      omega
  have nextLe := tail.next_bounds right (by simpa using high)
  simp only [Extent.stop] at high nextLe
  unfold unlink
  rw [enc.next]
  by_cases exact : (e.len : Int) = units
  · have whole : carve e e.start units = [] := by
      rw [← carve_all e]
      congr 1
      omega
    simp only [if_pos exact, whole, List.nil_append]
    have ahead : ∀ f ∈ l, f.start < next := fun f member => by have := starts f member; omega
    obtain ⟨linked, same⟩ := relink_spec (p := p) first left ahead (by omega)
    have frame : ∀ x, ¬ Covers (l ++ [e]) x → (relink a mem free (lastStart l) next).1 x = mem x :=
      fun x outside => same x fun covered => outside (by simp [covered])
    exact ⟨FreeSeg.append_iff.mpr ⟨next, linked, rest frame⟩, frame⟩
  · let tailBlock : Extent := ⟨e.start + units, e.len - units⟩
    have pieces : carve e e.start units = [tailBlock] := carve_front (by omega)
    simp only [if_neg exact, pieces]
    have ahead : ∀ f ∈ l, f.start < e.start + units := fun f member => by
      have := starts f member
      omega
    obtain ⟨linked, same⟩ := relink_spec (p := p) first left ahead (by omega)
    have cast : ((e.len : Int) - units) = (tailBlock.len : Int) := by
      simp only [tailBlock]; omega
    rw [cast]
    change FreeSeg a (setSlob a _ tailBlock.start tailBlock.len next) _ _ _ ∧
      ∀ x, _ → setSlob a _ tailBlock.start tailBlock.len next x = _
    have size : 0 < tailBlock.len := by simp only [tailBlock]; omega
    have frame : ∀ x, ¬ Covers (l ++ [e]) x →
        setSlob a (relink a mem free (lastStart l) (e.start + units)).1 tailBlock.start tailBlock.len
          next x = mem x := by
      intro x outside
      rw [setSlob_of_not_contains size, same x fun covered => outside (by simp [covered])]
      intro inside
      apply outside
      simp only [covers_append, covers_cons, covers_nil, or_false, Extent.Contains, tailBlock] at inside ⊢
      right
      omega
    have inner : Spaced 0 e.start [tailBlock] e.stop := by
      simp only [Spaced, tailBlock, Extent.stop, and_true]
      omega
    have order : Spaced 0 (a.pageStart p) (l ++ tailBlock :: m) (a.pageEnd p) := sep.replace inner
    refine ⟨FreeSeg.write linked (rest fun x outside => ?_) order (by simp only [tailBlock]; omega) (by omega), frame⟩
    exact same x fun covered => outside (by simp [covered])

/-- Fragmenting the head of a block turns it into two adjacent blocks. -/
theorem fragmentHead_spec {d : Nat} (seg : FreeSeg a mem free (l ++ e :: m) (a.pageEnd p))
    (sep : Spaced 0 (a.pageStart p) (l ++ e :: m) (a.pageEnd p)) (positive : 0 < d) (less : d < e.len) :
    FreeSeg a (fragmentHead a mem e.start e.len (e.start + d) d) free
        (l ++ ⟨e.start, d⟩ :: ⟨e.start + d, e.len - d⟩ :: m) (a.pageEnd p) ∧
      ∀ x, ¬ e.Contains x → fragmentHead a mem e.start e.len (e.start + d) d x = mem x := by
  obtain ⟨mid, first, here, next, enc, tail⟩ := FreeSeg.append_iff.mp seg
  obtain ⟨left, apart, le, low, nonempty, high, right⟩ := Spaced.append_iff.mp sep
  have starts := tail.next_bounds right (by simp only [Extent.stop] at *; omega)
  let head : Extent := ⟨e.start, d⟩
  let rear : Extent := ⟨e.start + d, e.len - d⟩
  have cast : ((e.len : Int) - d) = (rear.len : Int) := by simp only [rear]; omega
  have size : 0 < rear.len := by simp only [rear]; omega
  simp only [Extent.stop] at high starts
  unfold fragmentHead
  rw [enc.next, cast]
  change FreeSeg a (setSlob a (setSlob a mem rear.start rear.len next) head.start head.len rear.start)
      free (l ++ head :: rear :: m) _ ∧
    ∀ x, _ → setSlob a (setSlob a mem rear.start rear.len next) head.start head.len rear.start x = _
  have frame : ∀ x, ¬ e.Contains x →
      setSlob a (setSlob a mem rear.start rear.len next) head.start head.len rear.start x = mem x := by
    intro x outside
    have notHead : ¬ head.Contains x := fun hit => outside (by simp only [Extent.Contains, head] at *; omega)
    have notRear : ¬ rear.Contains x := fun hit => outside (by simp only [Extent.Contains, rear] at *; omega)
    rw [setSlob_of_not_contains positive notHead, setSlob_of_not_contains size notRear]
  have order : Spaced 0 (a.pageStart p) (l ++ head :: rear :: m) (a.pageEnd p) := sep.cut positive less
  have behind : Spaced 0 (a.pageStart p) ([] ++ rear :: m) (a.pageEnd p) := by
    refine ((Spaced.append_iff.mp order).2.2.2.2.2.2).weaken ?_
    simp only [head, Extent.stop]
    omega
  have start : FreeSeg a mem rear.start [] rear.start := rfl
  have second := start.write tail behind (by simp only [rear]; omega) (by omega)
  have first' : FreeSeg a (setSlob a mem rear.start rear.len next) free l head.start := by
    subst here
    refine first.frame left fun x covered => setSlob_of_not_contains size fun inside => ?_
    obtain ⟨f, member, hit⟩ := covered
    have := apart f member
    simp only [Extent.Contains, Extent.stop, rear] at *
    omega
  exact ⟨first'.write second order (by simp only [head, rear]; omega) (by simp only [rear]; omega), frame⟩

end Cs544.Slob
