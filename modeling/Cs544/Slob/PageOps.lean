import Cs544.Slob.FreeList

/-! What `slob_page_alloc` and `slob_free` do to the free list of one page.

The search is first fit from its starting block on; a block that is found is
carved, and a freed block is released into the list. Both are stated on the list
of extents the memory encodes, with the units they may write.
-/

set_option autoImplicit false

namespace Cs544.Slob

open Cs544.Library

variable {a : Arch} {mem : Memory} {h : Heap} {p cur free units : Nat} {align : Int} {e b : Extent}
  {l m : List Extent}

/-! ## The padding in front of a block -/

theorem pageEnd_mul_le (frame : (p + 1) * a.pageSize ≤ 2 ^ a.longBits) :
    a.slobUnit * a.pageEnd p ≤ 2 ^ a.longBits := by
  have whole := a.slobUnit_mul_pageUnits
  calc a.slobUnit * a.pageEnd p = (p + 1) * (a.slobUnit * a.pageUnits) := by
        rw [Arch.pageEnd, Nat.mul_add, Nat.add_mul, Nat.one_mul, Nat.mul_left_comm]
    _ ≤ 2 ^ a.longBits := whole ▸ frame

theorem slobUnit_mul_lt (frame : (p + 1) * a.pageSize ≤ 2 ^ a.longBits) (inside : cur < a.pageEnd p) :
    a.slobUnit * cur < 2 ^ a.longBits :=
  lt_of_lt_of_le (Nat.mul_lt_mul_of_pos_left inside a.slobUnit_pos) (pageEnd_mul_le frame)

/-- The padding is a number of units that makes the address a multiple of the
alignment, and `aligned` is that address as long as it lies in the page. -/
theorem deltaAt_spec (ok : Arch.AlignOk align) (frame : (p + 1) * a.pageSize ≤ 2 ^ a.longBits)
    (inside : cur < a.pageEnd p) :
    ∃ d : Nat, deltaAt a cur align = d ∧ (align ≠ 0 → align ∣ (a.slobUnit * (cur + d) : Nat)) ∧
      (d ≠ 0 → cur + d < a.pageEnd p → a.aligned cur align = cur + d) := by
  rcases ok with rfl | ⟨k, small, rfl⟩
  · exact ⟨0, rfl, fun absurd => (absurd rfl).elim, fun absurd => (absurd rfl).elim⟩
  · refine ⟨a.skip cur k, ?_, fun _ => ?_, fun _ within => ?_⟩
    · rw [deltaAt, if_pos (by positivity)]
      exact Arch.delta_eq small (slobUnit_mul_lt frame inside)
    · have aligned : 2 ^ k ∣ a.slobUnit * (cur + a.skip cur k) := Arch.dvd_skip
      exact_mod_cast aligned
    · exact Arch.aligned_eq small (slobUnit_mul_lt frame within)

/-! ## Taking a block -/

/-- The room test of the search loop for a free block. -/
def Fits (a : Arch) (units : Nat) (align : Int) (e : Extent) : Prop :=
  (units : Int) + deltaAt a e.start align ≤ e.len

instance (units : Nat) (align : Int) (e : Extent) : Decidable (Fits a units align e) :=
  inferInstanceAs (Decidable (_ ≤ _))

theorem takeBlock_spec {d : Nat} (seg : FreeSeg a h.mem (h.page p).free (l ++ e :: m) (a.pageEnd p))
    (sep : Spaced 0 (a.pageStart p) (l ++ e :: m) (a.pageEnd p)) (positive : 0 < units)
    (room : units + d ≤ e.len) :
    ∃ mem free,
      takeBlock a h p units (lastStart l) e.start e.len (e.start + d) d =
        (e.start + d, chargePage a h p mem free units) ∧
      FreeSeg a mem free (l ++ (carve e (e.start + d) units ++ m)) (a.pageEnd p) ∧
      ∀ x, ¬ Covers (l ++ [e]) x → mem x = h.mem x := by
  by_cases aligned : d = 0
  · subst aligned
    obtain ⟨linked, frame⟩ := unlink_spec seg sep positive (by omega)
    exact ⟨_, _, by rw [takeBlock, if_neg (by simp)]; rfl, linked, frame⟩
  · obtain ⟨split, same⟩ := fragmentHead_spec seg sep (d := d) (by omega) (by omega)
    let head : Extent := ⟨e.start, d⟩
    let rear : Extent := ⟨e.start + d, e.len - d⟩
    -- The two fragments touch, so the list is only ordered at this point.
    have order : Spaced 0 (a.pageStart p) ((l ++ [head]) ++ rear :: m) (a.pageEnd p) := by
      rw [List.append_assoc]
      exact sep.cut (by omega) (by omega)
    have seg' : FreeSeg a (fragmentHead a h.mem e.start e.len (e.start + d) d) (h.page p).free
        ((l ++ [head]) ++ rear :: m) (a.pageEnd p) := by
      rw [List.append_assoc]
      exact split
    have shorter : units ≤ rear.len := by simp only [rear]; omega
    obtain ⟨linked, frame⟩ := unlink_spec seg' order positive shorter
    obtain ⟨_, _, _, _, enc, _⟩ := FreeSeg.append_iff.mp seg'
    rw [lastStart_concat] at linked frame
    let taken := unlink a (fragmentHead a h.mem e.start e.len (e.start + d) d) (h.page p).free
      (some head.start) rear.start rear.len units
    refine ⟨taken.1, taken.2, ?_, ?_, fun x outside => ?_⟩
    · rw [takeBlock, if_pos (by exact_mod_cast aligned)]
      have size : slobUnits (fragmentHead a h.mem e.start e.len (e.start + d) d) (e.start + d) = rear.len :=
        enc.units
      simp only [size]
      rfl
    · have pieces : carve e (e.start + d) units = head :: carve rear rear.start units := by
        rw [carve_behind (by omega) (by simp only [Extent.stop]; omega)]
        simp only [head, rear, Extent.stop]
        congr 2
        · omega
        · congr 1
          omega
      rw [pieces]
      simpa using linked
    · refine (frame x fun covered => outside ?_).trans (same x fun inside => outside (by simp [inside]))
      simp only [covers_append, covers_cons, covers_nil, or_false, Extent.Contains, head, rear] at covered ⊢
      rcases covered with (covered | inside) | inside
      · exact .inl covered
      · right; omega
      · right; omega

/-! ## The search loop -/

/-- First fit from the starting block on: the loop returns `NULL` when no block
fits and takes the first one that does otherwise. -/
theorem slobPageAllocLoop_spec (units : Nat) (align : Int) (l m : List Extent) (fuel cur : Nat)
    (seg : FreeSeg a h.mem cur m (a.pageEnd p)) (sep : Spaced 0 (a.pageStart p) m (a.pageEnd p))
    (some' : m ≠ []) (enough : m.length ≤ fuel) :
    ((∀ e ∈ m, ¬ Fits a units align e) ∧
      slobPageAllocLoop a h p units align fuel (lastStart l) cur = .ok (none, h)) ∨
    ∃ m₁ e m₂, m = m₁ ++ e :: m₂ ∧ (∀ f ∈ m₁, ¬ Fits a units align f) ∧ Fits a units align e ∧
      slobPageAllocLoop a h p units align fuel (lastStart l) cur =
        .ok (some (takeBlock a h p units (lastStart (l ++ m₁)) e.start e.len (a.aligned e.start align)
            (deltaAt a e.start align)).1,
          (takeBlock a h p units (lastStart (l ++ m₁)) e.start e.len (a.aligned e.start align)
            (deltaAt a e.start align)).2) := by
  induction m generalizing l fuel cur with
  | nil => exact absurd rfl some'
  | cons e rest ih =>
    obtain ⟨rfl, size, tail⟩ := seg.cons_inv
    have last := slobLast_iff seg sep
    cases fuel with
    | zero => simp at enough
    | succ fuel =>
      simp only [slobPageAllocLoop, size]
      by_cases fits : Fits a units align e
      · right
        refine ⟨[], e, rest, rfl, by simp, fits, ?_⟩
        rw [if_pos (show (e.len : Int) ≥ units + deltaAt a e.start align from fits), List.append_nil]
      · rw [if_neg (show ¬ (e.len : Int) ≥ units + deltaAt a e.start align from fits)]
        by_cases final : rest = []
        · left
          rw [if_pos (last.mpr final)]
          exact ⟨by simp [final, fits], rfl⟩
        · rw [if_neg fun claim => final (last.mp claim)]
          have step := ih (l ++ [e]) fuel (slobNext a h.mem e.start) tail
            (sep.2.2.2.weaken (by have := sep.1; simp only [Extent.stop]; omega)) final
            (by simpa using enough)
          rw [lastStart_concat] at step
          rcases step with ⟨none', result⟩ | ⟨m₁, found, m₂, split, before, fit, result⟩
          · left
            exact ⟨by simpa [fits] using none', result⟩
          · right
            refine ⟨e :: m₁, found, m₂, by rw [split]; rfl, by simpa [fits] using before, fit, ?_⟩
            simpa using result

/-! ## Giving a block back -/

/-- The walk to the reinsertion point stops at the last block in front of `b`. -/
theorem slobFreeLoop_spec (bound : b.start < a.pageEnd p) (l : List Extent) (fuel cur : Nat)
    (seg : FreeSeg a mem cur (e :: l) (a.pageEnd p)) (before : e.start < b.start)
    (enough : l.length < fuel) :
    ∃ l₁ q l₂, e :: l = l₁ ++ q :: l₂ ∧ q.start < b.start ∧
      b.start ≤ slobNext a mem q.start ∧
      slobFreeLoop a mem b.start fuel cur (slobNext a mem cur) = .ok (q.start, slobNext a mem q.start) := by
  induction l generalizing e fuel cur with
  | nil =>
    obtain ⟨here, _, tail⟩ := seg.cons_inv
    cases fuel with
    | zero => simp at enough
    | succ fuel =>
      have next : slobNext a mem cur = a.pageEnd p := tail
      refine ⟨[], e, [], rfl, before, by rw [← here, next]; omega, ?_⟩
      rw [slobFreeLoop, if_neg (by rw [next]; omega), here]
  | cons f rest ih =>
    obtain ⟨here, _, tail⟩ := seg.cons_inv
    obtain ⟨next, _, _⟩ := tail.cons_inv
    cases fuel with
    | zero => simp at enough
    | succ fuel =>
      rw [slobFreeLoop]
      by_cases pass : b.start > slobNext a mem cur
      · obtain ⟨l₁, q, l₂, split, less, beyond, result⟩ :=
          ih fuel (slobNext a mem cur) tail (by omega) (by simpa using enough)
        refine ⟨e :: l₁, q, l₂, by rw [split]; rfl, less, beyond, ?_⟩
        rw [if_pos pass]
        exact result
      · refine ⟨[], e, f :: rest, rfl, before, by rw [← here]; omega, ?_⟩
        rw [if_neg pass, here]

/-- Writing a block in front of a segment, merged with its first block when they
touch: what `slob_free` does with the part of the list behind `b`. -/
theorem pushFront_spec {next : Nat} (seg : FreeSeg a mem next m (a.pageEnd p))
    (sep : Spaced 0 b.stop m (a.pageEnd p)) (low : a.pageStart p ≤ b.start) (positive : 0 < b.len)
    (high : b.stop ≤ a.pageEnd p) (merge : Prop) [Decidable merge]
    (touch : merge ↔ m ≠ [] ∧ b.start + b.len = next) :
    ∃ B rest mem',
      pushFront b m = B :: rest ∧
      (if merge then setSlob a mem b.start (b.len + slobUnits mem next) (slobNext a mem next)
        else setSlob a mem b.start b.len next) = mem' ∧
      FreeSeg a mem' b.start (B :: rest) (a.pageEnd p) ∧ Spaced 0 b.start (B :: rest) (a.pageEnd p) ∧
      (∀ x, B.Contains x → b.Contains x ∨ Covers m x) ∧
      ∀ x, ¬ B.Contains x → mem' x = mem x := by
  by_cases hit : merge
  · obtain ⟨some', reach⟩ := touch.mp hit
    cases m with
    | nil => exact absurd rfl some'
    | cons f others =>
      obtain ⟨here, size, tail⟩ := seg.cons_inv
      obtain ⟨behind, nonempty, stop, right⟩ := sep
      have bounds := tail.next_bounds right (by simpa using stop)
      let B : Extent := ⟨b.start, b.len + f.len⟩
      have cast : ((b.len : Int) + f.len) = (B.len : Int) := by simp [B]
      have order : Spaced 0 b.start (B :: others) (a.pageEnd p) := by
        simp only [Extent.stop] at stop
        refine ⟨le_rfl, by simp only [B]; omega, by simp only [B, Extent.stop]; omega, right.weaken ?_⟩
        simp only [B, Extent.stop]
        omega
      have placed : Spaced 0 (a.pageStart p) ([] ++ B :: others) (a.pageEnd p) := order.weaken low
      simp only [Extent.stop] at bounds
      refine ⟨B, others, _, ?_, by rw [if_pos hit, size, cast], ?_, order, fun x inside => ?_, fun x outside => ?_⟩
      · rw [pushFront, if_pos (by simp only [Extent.stop]; omega)]
      · have start : FreeSeg a mem B.start [] B.start := rfl
        exact start.write tail placed (by simp only [B]; omega) bounds.2
      · simp only [covers_cons, Extent.Contains, B] at inside ⊢
        omega
      · exact setSlob_of_not_contains order.2.1 outside
  · have bounds := seg.next_bounds sep high
    simp only [Extent.stop] at bounds
    have order : Spaced 0 b.start (b :: m) (a.pageEnd p) := ⟨le_rfl, positive, high, sep⟩
    have placed : Spaced 0 (a.pageStart p) ([] ++ b :: m) (a.pageEnd p) := order.weaken low
    refine ⟨b, m, _, ?_, by rw [if_neg hit], ?_, order, fun x inside => .inl inside,
      fun x outside => setSlob_of_not_contains positive outside⟩
    · cases m with
      | nil => rfl
      | cons f others =>
        have apart : b.start + b.len ≠ next := fun reach => hit (touch.mpr ⟨by simp, reach⟩)
        have here := seg.cons_inv.1
        rw [pushFront, if_neg (by simp only [Extent.stop]; omega)]
    · have start : FreeSeg a mem b.start [] b.start := rfl
      exact start.write seg placed (by omega) bounds.2

/-- Linking `b` behind block `q`, merged with `q` and with the block that follows. -/
theorem insertBehind_spec {q : Extent} {l₁ l₂ : List Extent}
    (seg : FreeSeg a mem free (l₁ ++ q :: l₂) (a.pageEnd p))
    (sep : Separated (a.pageStart p) (l₁ ++ q :: l₂) (a.pageEnd p)) (positive : 0 < b.len)
    (high : b.stop ≤ a.pageEnd p) (apart : ∀ e ∈ l₁ ++ q :: l₂, b.Disjoint e) (less : q.start < b.start)
    (reach : b.start ≤ slobNext a mem q.start) :
    let merged := if ¬ slobLast a mem q.start ∧ b.start + b.len = slobNext a mem q.start then
        setSlob a mem b.start (b.len + slobUnits mem (slobNext a mem q.start))
          (slobNext a mem (slobNext a mem q.start))
      else setSlob a mem b.start b.len (slobNext a mem q.start)
    let mem' := if q.start + slobUnits merged q.start = b.start then
        setSlob a merged q.start (slobUnits merged b.start + slobUnits merged q.start)
          (slobNext a merged b.start)
      else setSlob a merged q.start (slobUnits merged q.start) b.start
    FreeSeg a mem' free (release b (l₁ ++ q :: l₂)) (a.pageEnd p) ∧
      ∀ x, ¬ Covers (l₁ ++ q :: l₂) x → ¬ b.Contains x → mem' x = mem x := by
  have order : Spaced 0 (a.pageStart p) (l₁ ++ q :: l₂) (a.pageEnd p) := Spaced.ordered sep
  obtain ⟨mid, first, segQ⟩ := FreeSeg.append_iff.mp seg
  obtain ⟨left, gap, low, right⟩ := Spaced.append_iff.mp sep
  have last := slobLast_iff segQ (Spaced.ordered (right.weaken low))
  obtain ⟨rfl, sizeQ, tail⟩ := segQ.cons_inv
  obtain ⟨_, nextQ, encQ, _⟩ := segQ
  obtain ⟨_, nonempty, stopQ, rightQ⟩ := right
  have disjoint := apart q (by simp)
  simp only [Extent.stop, Extent.Disjoint] at disjoint
  -- The blocks behind `q` are also behind `b`.
  have beyond : Spaced 0 b.stop l₂ (a.pageEnd p) := by
    cases l₂ with
    | nil => trivial
    | cons f others =>
      have here := tail.cons_inv.1
      have away := apart f (by simp)
      simp only [Extent.stop, Extent.Disjoint] at away ⊢
      exact ⟨by have := rightQ.2.1; omega, (Spaced.ordered rightQ).2⟩
  obtain ⟨B, rest, merged, push, written, segB, orderB, inside, frame⟩ :=
    pushFront_spec tail beyond (by omega) positive high
      (¬ slobLast a mem q.start ∧ b.start + b.len = slobNext a mem q.start) (by rw [last])
  obtain ⟨start, next', enc, seg'⟩ := segB
  obtain ⟨-, sizePos, stopB, spaced⟩ := orderB
  have bounds := seg'.next_bounds spaced stopB
  simp only [written]
  have encQ' : Encodes a merged q nextQ := encQ.frame nonempty fun x hit => frame x fun hitB => by
    simp only [Extent.Contains] at *
    omega
  have sizeB : slobUnits merged b.start = B.len := start ▸ enc.units
  have nextB : slobNext a merged b.start = next' := start ▸ enc.next
  have first' : FreeSeg a merged free l₁ q.start := by
    refine first.frame left fun x covered => frame x fun hitB => ?_
    obtain ⟨f, member, hit⟩ := covered
    have := gap f member
    simp only [Extent.Contains, Extent.stop] at *
    omega
  simp only [Extent.stop] at stopB stopQ bounds
  simp only [encQ'.units, sizeB, nextB]
  have kept : release b (l₁ ++ q :: l₂) = l₁ ++ release b (q :: l₂) :=
    release_append fun f member => by have := gap f member; omega
  have ahead : release b (q :: l₂) =
      if q.stop = b.start then pushFront ⟨q.start, q.len + b.len⟩ l₂ else q :: release b l₂ := by
    rw [release, if_neg (by omega)]
  rw [kept, ahead]
  have covered : ∀ x, B.Contains x ∨ q.Contains x → Covers (l₁ ++ q :: l₂) x ∨ b.Contains x := by
    rintro x (hit | hit)
    · rcases inside x hit with hit | hit
      · exact .inr hit
      · exact .inl (by simp [hit])
    · exact .inl (by simp [hit])
  -- The block that is written last takes the place of `q`, whichever it is.
  have frame' {Q : Extent} {target : Nat} (size : 0 < Q.len)
      (within : ∀ x, Q.Contains x → B.Contains x ∨ q.Contains x) :
      ∀ x, ¬ Covers (l₁ ++ q :: l₂) x → ¬ b.Contains x → setSlob a merged Q.start Q.len target x = mem x := by
    intro x outside away
    rw [setSlob_of_not_contains size fun hit => (covered x (within x hit)).elim outside away]
    exact frame x fun hit => (covered x (.inl hit)).elim outside away
  have ordered {Q : Extent} {behind : List Extent} (here : Q.start = q.start)
      (right : Spaced 0 q.start (Q :: behind) (a.pageEnd p)) :
      Spaced 0 (a.pageStart p) (l₁ ++ Q :: behind) (a.pageEnd p) := by
    refine Spaced.append_iff.mpr ⟨Spaced.ordered left, fun f member => ?_, here ▸ low, here ▸ right⟩
    rw [here]
    exact Nat.le_of_succ_le (gap f member)
  by_cases touch : (q.start : Int) + q.len = b.start
  · let Q : Extent := ⟨q.start, q.len + B.len⟩
    have cast : ((B.len : Int) + q.len) = (Q.len : Int) := by simp only [Q]; omega
    rw [if_pos touch, if_pos (by simp only [Extent.stop]; omega), pushFront_extend push
      (by simp only [Extent.stop]; omega), cast]
    have stopQB : Q.stop = B.stop := by simp only [Q, Extent.stop]; omega
    have order : Spaced 0 q.start (Q :: rest) (a.pageEnd p) :=
      ⟨le_rfl, by simp only [Q]; omega, stopQB ▸ stopB, stopQB ▸ spaced⟩
    refine ⟨FreeSeg.write first' seg' (ordered rfl order) ?_ bounds.2, frame' order.2.1 fun x hit => ?_⟩
    · simp only [Q]
      omega
    · simp only [Extent.Contains, Q] at hit ⊢
      omega
  · rw [if_neg touch, if_neg (by simp only [Extent.stop]; omega), release_of_before, push]
    · have order : Spaced 0 q.start (q :: B :: rest) (a.pageEnd p) :=
        ⟨le_rfl, nonempty, stopQ, by simp only [Extent.stop]; omega, sizePos, stopB, spaced⟩
      have segB : FreeSeg a merged b.start (B :: rest) (a.pageEnd p) := ⟨start, next', enc, seg'⟩
      exact ⟨first'.write segB (ordered rfl order) less (by omega), frame' nonempty fun x hit => .inr hit⟩
    · intro f member
      have := (beyond.bounds member).1
      simp only [Extent.stop] at this
      omega

/-- A freed block is released into the free list of its page; only the units of
free blocks and of the freed block are written. -/
theorem reinsert_spec (seg : FreeSeg a mem free l (a.pageEnd p))
    (sep : Separated (a.pageStart p) l (a.pageEnd p)) (some' : l ≠ []) (low : a.pageStart p ≤ b.start)
    (positive : 0 < b.len) (high : b.stop ≤ a.pageEnd p) (apart : ∀ e ∈ l, b.Disjoint e) :
    ∃ mem' free', reinsert a mem free b.start b.len = .ok (mem', free') ∧
      FreeSeg a mem' free' (release b l) (a.pageEnd p) ∧
      ∀ x, ¬ Covers l x → ¬ b.Contains x → mem' x = mem x := by
  have order : Spaced 0 (a.pageStart p) l (a.pageEnd p) := Spaced.ordered sep
  cases l with
  | nil => exact absurd rfl some'
  | cons e rest =>
    obtain ⟨here, size, tail⟩ := seg.cons_inv
    have disjoint := apart e (by simp)
    have stop := high
    simp only [Extent.stop, Extent.Disjoint] at disjoint stop
    have nonempty := sep.2.1
    unfold reinsert
    by_cases front : b.start < free
    · have beyond : Spaced 0 b.stop (e :: rest) (a.pageEnd p) :=
        ⟨by simp only [Extent.stop]; omega, order.2⟩
      obtain ⟨B, others, mem', push, written, seg', _, inside, frame⟩ :=
        pushFront_spec seg beyond low positive high (b.start + b.len = free) (by simp)
      refine ⟨mem', b.start, ?_, ?_, fun x outside away => frame x fun hit => ?_⟩
      · rw [if_pos front, ← written]
        split <;> rfl
      · rw [release, if_pos (by omega), push]
        exact seg'
      · rcases inside x hit with hit | covered
        · exact away hit
        · exact outside covered
    · have behind : e.start < b.start := by omega
      have enough : rest.length < a.pageUnits := by
        have := Spaced.length_le order
        have := Spaced.total_le order (a.pageStart_lt p).le
        have := a.pageStart_add p
        simp only [List.length_cons] at *
        omega
      obtain ⟨l₁, q, l₂, split, less, reach, loop⟩ :=
        slobFreeLoop_spec (b := b) (by omega) rest a.pageUnits free seg behind enough
      rw [split] at seg sep apart ⊢
      obtain ⟨seg', frame⟩ := insertBehind_spec seg sep positive high apart less reach
      exact ⟨_, free, by rw [if_neg front, loop], seg', frame⟩

end Cs544.Slob
