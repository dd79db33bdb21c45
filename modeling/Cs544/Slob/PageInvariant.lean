import Cs544.Library.Runs
import Cs544.Slob.PageOps

/-! The invariant of one SLOB page over any history of allocations and frees.

`PageInv` ties the memory to the list of free blocks it encodes and both to the
blocks that are live. Every call on a page keeps it, so it holds after any run
that starts from a freshly initialised page.
-/

set_option autoImplicit false

namespace Cs544.Slob

open Cs544.Library

/-- A block handed out and not yet freed, with the size it was asked for. -/
structure LiveBlock where
  addr : Nat
  size : Nat
  deriving DecidableEq, Repr

def LiveBlock.extent (a : Arch) (b : LiveBlock) : Extent := ⟨b.addr, a.slobUnitsOf b.size⟩

def extents (a : Arch) (live : List LiveBlock) : List Extent := live.map (LiveBlock.extent a)

theorem extents_perm {a : Arch} {live live' : List LiveBlock} (perm : live.Perm live') :
    (extents a live).Perm (extents a live') := perm.map _

@[simp] theorem extents_nil (a : Arch) : extents a [] = [] := rfl

@[simp] theorem extents_cons (a : Arch) (b : LiveBlock) (live : List LiveBlock) :
    extents a (b :: live) = b.extent a :: extents a live := rfl

/-- A page, the blocks live on it and the free blocks its memory encodes. -/
structure PageInv (a : Arch) (h : Heap) (p : Nat) (live : List LiveBlock) (blocks : List Extent) :
    Prop where
  follows : FreeSeg a h.mem (h.page p).free blocks (a.pageEnd p)
  separated : Separated (a.pageStart p) blocks (a.pageEnd p)
  inPage : ∀ b ∈ live, a.pageStart p ≤ b.addr ∧ 0 < a.slobUnitsOf b.size ∧
    b.addr + a.slobUnitsOf b.size ≤ a.pageEnd p
  apart : live.Pairwise fun b c => (b.extent a).Disjoint (c.extent a)
  tiles : ∀ x, a.pageStart p ≤ x → x < a.pageEnd p → (Covers blocks x ↔ ¬ Covers (extents a live) x)
  units : (h.page p).units = total blocks
  whole : total blocks + total (extents a live) = a.pageUnits
  marked : (h.page p).slobFree = true ↔ 0 < (h.page p).units

variable {a : Arch} {h h' : Heap} {p q size : Nat} {align : Int} {bestSlob prevSlob : Option Nat}
  {live : List LiveBlock} {blocks l m : List Extent} {b : LiveBlock}

namespace PageInv

theorem perm {live' : List LiveBlock} (inv : PageInv a h p live blocks) (perm : live.Perm live') :
    PageInv a h p live' blocks where
  follows := inv.follows
  separated := inv.separated
  inPage c member := inv.inPage c (perm.mem_iff.mpr member)
  apart := (perm.pairwise_iff fun apart => apart.symm).mp inv.apart
  tiles x low high := by rw [inv.tiles x low high, covers_perm (extents_perm perm) x]
  units := inv.units
  whole := by rw [← inv.whole, total_perm (extents_perm perm)]
  marked := inv.marked

/-- A page does not notice what happens outside of it. -/
theorem frame (inv : PageInv a h p live blocks) (page : h'.page p = h.page p)
    (mem : ∀ x, a.pageStart p ≤ x → x < a.pageEnd p → h'.mem x = h.mem x) :
    PageInv a h' p live blocks where
  follows := by
    rw [page]
    refine inv.follows.frame inv.separated fun x covered => ?_
    obtain ⟨low, high⟩ := Spaced.covers_bounds inv.separated covered
    exact mem x low high
  separated := inv.separated
  inPage := inv.inPage
  apart := inv.apart
  tiles := inv.tiles
  units := page ▸ inv.units
  whole := inv.whole
  marked := page ▸ inv.marked

/-- Writing into a live block, whose units are not part of the free list. -/
theorem zeroed (inv : PageInv a h p (b :: live) blocks)
    (mem : ∀ x, ¬ (b.extent a).Contains x → h'.mem x = h.mem x) (page : h'.page = h.page) :
    PageInv a h' p (b :: live) blocks where
  follows := by
    rw [page]
    refine inv.follows.frame inv.separated fun x covered => mem x fun inside => ?_
    obtain ⟨low, high⟩ := Spaced.covers_bounds inv.separated covered
    exact (inv.tiles x low high).mp covered (by simp [inside])
  separated := inv.separated
  inPage := inv.inPage
  apart := inv.apart
  tiles := inv.tiles
  units := page ▸ inv.units
  whole := inv.whole
  marked := page ▸ inv.marked

theorem blocks_ne_nil (inv : PageInv a h p live blocks) (free : 0 < (h.page p).units) : blocks ≠ [] := by
  rintro rfl
  have := inv.units
  simp only [total_nil] at this
  omega

theorem blocks_eq_nil (inv : PageInv a h p live blocks) (full : (h.page p).units = 0) : blocks = [] := by
  refine total_eq_zero (fun e member => (Spaced.bounds inv.separated member).2.1) ?_
  have := inv.units
  omega

theorem length_le (inv : PageInv a h p live blocks) : blocks.length ≤ a.pageUnits := by
  have := Spaced.length_le inv.separated
  have := inv.whole
  omega

/-- The executable walk over the page sees exactly the blocks of the invariant. -/
theorem freeList_eq (inv : PageInv a h p live blocks) : freeList a h p = blocks := by
  have follows := inv.follows
  have separated := inv.separated
  unfold freeList
  cases blocks with
  | nil => exact if_pos follows
  | cons e rest =>
    have here := follows.cons_inv.1
    obtain ⟨_, positive, stop, _⟩ := separated
    simp only [Extent.stop] at stop
    rw [if_neg (by omega)]
    exact freeBlocks_eq follows (Spaced.ordered inv.separated) inv.length_le

theorem disjoint (inv : PageInv a h p live blocks) {e : Extent} (free : e ∈ blocks) (used : b ∈ live) :
    (b.extent a).Disjoint e := by
  obtain ⟨low, positive, high⟩ := inv.inPage b used
  obtain ⟨_, nonempty, _⟩ := Spaced.bounds inv.separated free
  refine (Extent.disjoint_iff positive nonempty).mpr fun x ⟨inside, hit⟩ => ?_
  simp only [Extent.Contains, LiveBlock.extent] at inside
  have covered : Covers blocks x := ⟨e, free, hit⟩
  refine (inv.tiles x (by omega) (by omega)).mp covered ?_
  exact ⟨b.extent a, List.mem_map.mpr ⟨b, used, rfl⟩, by simpa only [Extent.Contains, LiveBlock.extent] using inside⟩

/-- `slob_alloc` starts a page with one free block over all of it. -/
theorem fresh (h : Heap) (list : SizeClass) :
    PageInv a (freshPage a h (a.pageStart p) list) p [] [⟨a.pageStart p, a.pageUnits⟩] := by
  have start := a.pageStart_lt p
  have whole := a.pageStart_add p
  have number : a.pageOf (a.pageStart p) = p := Arch.pageOf_eq le_rfl start
  have page : (freshPage a h (a.pageStart p) list).page p =
      { h.page p with units := a.pageUnits, free := a.pageStart p, slobFree := true, slab := true } := by
    simp [freshPage, number, Heap.setPage, setSlobPage]
  let e : Extent := ⟨a.pageStart p, a.pageUnits⟩
  have enc : Encodes a (freshPage a h (a.pageStart p) list).mem e (a.pageEnd p) :=
    setSlob_encodes (p := p) (e := e) le_rfl a.pageUnits_pos le_rfl start le_rfl
  refine ⟨?_, ?_, by simp, .nil, ?_, ?_, ?_, ?_⟩
  · rw [page]
    exact ⟨rfl, _, enc, rfl⟩
  · exact ⟨le_rfl, a.pageUnits_pos, le_rfl, trivial⟩
  · intro x low high
    simp only [covers_cons, covers_nil, or_false, Extent.Contains, extents_nil, not_false_iff, iff_true]
    omega
  · rw [page]
    simp
  · simp
  · rw [page]
    simpa using a.pageUnits_pos

/-! ## Allocation -/

/-- The part of a block that is taken leaves the set of free units, and nothing
else does. -/
theorem covers_taken {e : Extent} {pos len x : Nat} (sep : Separated (a.pageStart p) (l ++ e :: m) (a.pageEnd p))
    (low : e.start ≤ pos) (high : pos + len ≤ e.stop) :
    Covers (l ++ (carve e pos len ++ m)) x ↔
      Covers (l ++ e :: m) x ∧ ¬ Extent.Contains ⟨pos, len⟩ x := by
  obtain ⟨left, before, _, _, _, _, right⟩ := Spaced.append_iff.mp sep
  simp only [covers_append, covers_cons, covers_carve low high]
  have first : Covers l x → ¬ (pos ≤ x ∧ x < pos + len) := by
    rintro ⟨f, member, hit⟩ inside
    have := before f member
    simp only [Extent.Contains, Extent.stop] at *
    omega
  have second : Covers m x → ¬ (pos ≤ x ∧ x < pos + len) := fun covered inside => by
    have := (right.covers_bounds covered).1
    simp only [Extent.stop] at *
    omega
  constructor
  · rintro (covered | ⟨hit, outside⟩ | covered)
    · exact ⟨.inl covered, first covered⟩
    · exact ⟨.inr (.inl hit), outside⟩
    · exact ⟨.inr (.inr covered), second covered⟩
  · rintro ⟨covered | hit | covered, outside⟩
    · exact .inl covered
    · exact .inr (.inl ⟨hit, outside⟩)
    · exact .inr (.inr covered)

theorem taken {mem : Memory} {e : Extent} {free pos : Nat} (inv : PageInv a h p live (l ++ e :: m))
    (positive : 0 < size) (low : e.start ≤ pos) (high : pos + a.slobUnitsOf size ≤ e.stop)
    (follows : FreeSeg a mem free (l ++ (carve e pos (a.slobUnitsOf size) ++ m)) (a.pageEnd p)) :
    PageInv a (chargePage a h p mem free (a.slobUnitsOf size)) p (⟨pos, size⟩ :: live)
      (l ++ (carve e pos (a.slobUnitsOf size) ++ m)) := by
  have units := inv.units
  have whole := inv.whole
  have marked := inv.marked
  have reserve := Arch.slobUnitsOf_pos (a := a) positive
  have bounds := Spaced.bounds inv.separated (e := e) (by simp)
  have pieces := total_carve low high
  simp only [total_append, total_cons] at units whole
  have less : slobidx a ((h.page p).units - a.slobUnitsOf size) = (h.page p).units - a.slobUnitsOf size :=
    slobidx_eq (by omega) (by omega)
  have inside : ∀ x, Extent.Contains ⟨pos, a.slobUnitsOf size⟩ x → e.Contains x := fun x hit => by
    simp only [Extent.Contains, Extent.stop] at *
    omega
  refine ⟨by simpa using follows, Separated.carve inv.separated low high reserve, ?_, ?_, ?_, ?_, ?_, ?_⟩
  · intro c member
    rcases List.mem_cons.mp member with rfl | member
    · simp only [Extent.stop] at high bounds ⊢
      omega
    · exact inv.inPage c member
  · refine .cons (fun c member => ?_) inv.apart
    have away := inv.disjoint (e := e) (by simp) member
    simp only [Extent.Disjoint, LiveBlock.extent, Extent.stop] at *
    omega
  · intro x lower upper
    rw [covers_taken inv.separated low high, inv.tiles x lower upper]
    simp only [extents_cons, covers_cons, not_or, LiveBlock.extent, and_comm]
  · simp only [chargePage_page_self, less, total_append]
    omega
  · simp only [extents_cons, total_append, total_cons, LiveBlock.extent]
    omega
  · simp only [chargePage_page_self, less, Bool.and_eq_true, bne_iff_ne, ne_eq, marked]
    omega

/-- `slob_page_alloc` on a page that keeps the invariant, started at any block of
its free list: it returns, it returns `NULL` only when no block from there on has
room, and else carves the block out of the first one that has. -/
theorem alloc (inv : PageInv a h p live (l ++ m)) (frame : (p + 1) * a.pageSize ≤ 2 ^ a.longBits)
    (positive : 0 < size) (ok : Arch.AlignOk align) (some' : m ≠ []) (prev : prevSlob = lastStart l)
    (start : FreeSeg a h.mem (bestSlob.getD (h.page p).free) m (a.pageEnd p)) :
    ((∀ e ∈ m, ¬ Fits a (a.slobUnitsOf size) align e) ∧
      slobPageAlloc a h p size align bestSlob prevSlob = .ok (none, h)) ∨
    ∃ m₁ e m₂, ∃ addr : Nat, ∃ mem free, m = m₁ ++ e :: m₂ ∧ (∀ f ∈ m₁, ¬ Fits a (a.slobUnitsOf size) align f) ∧
      Fits a (a.slobUnitsOf size) align e ∧ (addr : Int) = e.start + deltaAt a e.start align ∧
      slobPageAlloc a h p size align bestSlob prevSlob =
        .ok (some addr, chargePage a h p mem free (a.slobUnitsOf size)) ∧
      PageInv a (chargePage a h p mem free (a.slobUnitsOf size)) p (⟨addr, size⟩ :: live)
        (l ++ m₁ ++ (carve e addr (a.slobUnitsOf size) ++ m₂)) ∧
      e.start ≤ addr ∧ addr + a.slobUnitsOf size ≤ e.stop ∧ (align ≠ 0 → align ∣ (a.slobUnit * addr : Nat)) ∧
      ∀ x, ¬ Covers (l ++ m) x → mem x = h.mem x := by
  have reserve := Arch.slobUnitsOf_pos (a := a) positive
  have enough := inv.length_le
  rw [List.length_append] at enough
  have order := Spaced.ordered inv.separated
  have orderM : Spaced 0 (a.pageStart p) m (a.pageEnd p) := by
    cases m with
    | nil => exact absurd rfl some'
    | cons f rest => exact (Spaced.append_iff.mp order).2.2.2.weaken (Spaced.append_iff.mp order).2.2.1
  subst prev
  rcases slobPageAllocLoop_spec (a.slobUnitsOf size) align l m a.pageUnits _ start orderM some' (by omega) with
    ⟨none', result⟩ | ⟨m₁, e, m₂, split, passed, fits, result⟩
  · exact .inl ⟨none', result⟩
  · right
    subst split
    rw [← List.append_assoc] at inv order ⊢
    obtain ⟨low, nonempty, high⟩ := order.bounds (e := e) (by simp)
    have within : e.start < a.pageEnd p := by
      simp only [Extent.stop] at high
      omega
    obtain ⟨d, delta, divides, aligned⟩ := deltaAt_spec ok frame within
    have room : a.slobUnitsOf size + d ≤ e.len := by
      simp only [Fits, delta] at fits
      omega
    obtain ⟨mem, free, taken, follows, same⟩ := takeBlock_spec (d := d) inv.follows order reserve room
    have inside : e.start + d + a.slobUnitsOf size ≤ e.stop := by
      simp only [Extent.stop]
      omega
    refine ⟨m₁, e, m₂, e.start + d, mem, free, rfl, passed, fits, by rw [delta]; exact Int.natCast_add _ _, ?_,
      inv.taken positive (by omega) inside follows, by omega, inside, divides,
      fun x outside => same x fun covered => outside ?_⟩
    · rw [slobPageAlloc, result, delta]
      -- Without padding `aligned` is not used.
      have call : takeBlock a h p (a.slobUnitsOf size) (lastStart (l ++ m₁)) e.start e.len
          (a.aligned e.start align) d = (e.start + d, chargePage a h p mem free (a.slobUnitsOf size)) := by
        by_cases none' : d = 0
        · rw [← taken]
          subst none'
          rfl
        · simp only [Extent.stop] at high
          rw [aligned none' (by omega), taken]
      rw [call]
    · simp only [covers_append, covers_cons, covers_nil, or_false] at covered ⊢
      exact covered.imp_right .inl

/-! ## Freeing -/

/-- What is left once `b` is freed: any list of blocks that covers one more
extent, in canonical form, with the page fields set to match. -/
theorem released (inv : PageInv a h p (b :: live) blocks) {blocks' : List Extent}
    (follows : FreeSeg a h'.mem (h'.page p).free blocks' (a.pageEnd p))
    (separated : Separated (a.pageStart p) blocks' (a.pageEnd p))
    (covers : ∀ x, Covers blocks' x ↔ (b.extent a).Contains x ∨ Covers blocks x)
    (totals : total blocks' = a.slobUnitsOf b.size + total blocks)
    (units : (h'.page p).units = total blocks') (marked : (h'.page p).slobFree = true) :
    PageInv a h' p live blocks' := by
  have reserve := (inv.inPage b (by simp)).2.1
  have whole := inv.whole
  simp only [extents_cons, total_cons, LiveBlock.extent] at whole
  refine ⟨follows, separated, fun c member => inv.inPage c (by simp [member]), inv.apart.tail, ?_, units,
    by omega, ?_⟩
  · intro x low high
    have before := inv.tiles x low high
    simp only [extents_cons, covers_cons, not_or] at before
    rw [covers x, before]
    constructor
    · rintro (inside | ⟨_, free⟩) used
      · obtain ⟨f, member, hit⟩ := used
        obtain ⟨c, used, rfl⟩ := List.mem_map.mp member
        have away := (List.pairwise_cons.mp inv.apart).1 c used
        simp only [Extent.Disjoint, Extent.Contains, Extent.stop] at *
        omega
      · exact free used
    · intro unused
      by_cases inside : (b.extent a).Contains x
      · exact .inl inside
      · exact .inr ⟨inside, unused⟩
  · rw [marked, units, totals]
    simp only [true_iff]
    omega

/-- A live block passes the checks at the entry of `slob_free`. -/
theorem free_guards (inv : PageInv a h p (b :: live) blocks) (nonnull : 0 < p) :
    ¬ a.slobUnit * b.addr ≤ 16 ∧ b.size ≠ 0 ∧ a.pageOf b.addr = p := by
  obtain ⟨low, reserve, high⟩ := inv.inPage b (by simp)
  refine ⟨?_, ?_, Arch.pageOf_eq low (by omega)⟩
  · have first : a.pageUnits ≤ b.addr := (Nat.le_mul_of_pos_left _ nonnull).trans low
    have bytes := Nat.mul_le_mul_left a.slobUnit first
    rw [a.slobUnit_mul_pageUnits] at bytes
    have := a.pageSize_ge
    omega
  · rintro zero
    rw [zero, Arch.slobUnitsOf, Nat.zero_add,
      Nat.div_eq_of_lt (Nat.sub_lt a.slobUnit_pos (by decide))] at reserve
    omega

/-- The freed block is the last one of its page exactly when `slob_free` hands the
page back. -/
theorem last_iff (inv : PageInv a h p (b :: live) blocks) :
    (h.page p).units + a.slobUnitsOf b.size = a.pageUnits ↔ live = [] := by
  have whole := inv.whole
  have units := inv.units
  simp only [extents_cons, total_cons, LiveBlock.extent] at whole
  constructor
  · intro full
    refine List.map_eq_nil_iff.mp (total_eq_zero (l := extents a live) (fun e member => ?_) (by omega))
    obtain ⟨c, used, rfl⟩ := List.mem_map.mp member
    exact (inv.inPage c (by simp [used])).2.1
  · rintro rfl
    simp only [extents_nil, total_nil] at whole
    omega

theorem free (inv : PageInv a h p (b :: live) blocks) (nonnull : 0 < p)
    (kept : (h.page p).units + a.slobUnitsOf b.size ≠ a.pageUnits) :
    ∃ h' blocks', slobFree a h b.addr b.size = .ok h' ∧ PageInv a h' p live blocks' ∧
      (∀ q, q ≠ p → h'.page q = h.page q) ∧ (h'.page p).slab = (h.page p).slab ∧
      h'.lists = (if (h.page p).slobFree then h.lists
        else Function.update h.lists (slobList b.size) (p :: h.lists (slobList b.size))) ∧
      ∀ x, ¬ Covers blocks x → ¬ (b.extent a).Contains x → h'.mem x = h.mem x := by
  obtain ⟨low, reserve, high⟩ := inv.inPage b (by simp)
  have whole := inv.whole
  have units := inv.units
  simp only [extents_cons, total_cons, LiveBlock.extent] at whole
  obtain ⟨pointer, size, number⟩ := inv.free_guards nonnull
  unfold slobFree
  simp only [if_neg pointer, if_neg size, number, if_neg kept]
  by_cases marked : (h.page p).slobFree = true
  · have some' : blocks ≠ [] := inv.blocks_ne_nil (inv.marked.mp marked)
    have apart : ∀ e ∈ blocks, (b.extent a).Disjoint e := fun e free => inv.disjoint free (by simp)
    obtain ⟨mem, free, call, follows, same⟩ :=
      reinsert_spec (b := b.extent a) inv.follows inv.separated some' low reserve high apart
    have sum : slobidx a ((h.page p).units + a.slobUnitsOf b.size) =
        (h.page p).units + a.slobUnitsOf b.size := slobidx_eq (by omega) (by omega)
    simp only [LiveBlock.extent] at call
    simp only [marked, not_true_eq_false, if_false, call, if_true]
    refine ⟨_, release (b.extent a) blocks, rfl, inv.released ?_
      (Separated.release inv.separated low reserve high apart) (covers_release _ _) ?_ ?_ ?_,
      fun q other => ?_, ?_, rfl, same⟩
    · simpa [Heap.setPage] using follows
    · rw [total_release]; rfl
    · simp only [Heap.setPage, Function.update_self, sum, total_release, LiveBlock.extent]
      omega
    · simp [Heap.setPage]
    · simp [Heap.setPage, other]
    · simp [Heap.setPage]
  · have full : ¬ 0 < (h.page p).units := fun free => marked (inv.marked.mpr free)
    have empty : blocks = [] := inv.blocks_eq_nil (by omega)
    subst empty
    have mark : (h.page p).slobFree = false := by simpa using marked
    have target := a.pageBase_add_pageUnits low (show b.addr < a.pageEnd p by omega)
    simp only [mark, Bool.false_eq_true, not_false_eq_true, if_true, if_false, target]
    refine ⟨_, [b.extent a], rfl, inv.released ?_ ⟨low, reserve, high, trivial⟩ (by simp) ?_ ?_ ?_,
      fun q other => ?_, ?_, rfl, fun x _ outside => ?_⟩
    · refine ⟨by simp [Heap.setPage, LiveBlock.extent], a.pageEnd p, ?_, rfl⟩
      exact setSlob_encodes (p := p) (e := b.extent a) low reserve high (a.pageStart_lt p) le_rfl
    · simp [LiveBlock.extent]
    · simp [Heap.setPage, LiveBlock.extent]
    · simp [Heap.setPage]
    · simp [Heap.setPage, other]
    · simp [Heap.setPage]
    · exact setSlob_of_not_contains (e := b.extent a) reserve outside

end PageInv

/-! ## Histories of one page -/

structure PageState where
  heap : Heap
  live : List LiveBlock

/-- A call on a page. The owner of a live block may also write into it at any time. -/
inductive PageCall where
  | alloc (size : Nat) (align : Int) (bestSlob prevSlob : Option Nat)
  | free (block : LiveBlock)
  | write (unit : Nat) (value : Int)

/-- The hint of `slob_page_alloc`: none, or a block of the current free list with
its true predecessor. -/
def Hint (a : Arch) (h : Heap) (p : Nat) (bestSlob prevSlob : Option Nat) : Prop :=
  (bestSlob = none ∧ prevSlob = none) ∨
  ∃ l e m, freeList a h p = l ++ e :: m ∧ bestSlob = some e.start ∧ prevSlob = lastStart l

/-- The blocks `slob_page_alloc` looks at: all of the free list, or those from the
hinted block on. -/
def searchedBlocks (a : Arch) (h : Heap) (p : Nat) : Option Nat → List Extent
  | none => freeList a h p
  | some b => (freeList a h p).dropWhile fun e => e.start ≠ b

theorem PageInv.searchedBlocks_eq {e : Extent} (inv : PageInv a h p live blocks) (list : freeList a h p = l ++ e :: m) :
    searchedBlocks a h p (some e.start) = e :: m := by
  have gaps := Spaced.pairwise inv.separated
  rw [← inv.freeList_eq, list] at gaps
  have before : ∀ f ∈ l, decide (f.start ≠ e.start) = true := fun f member => by
    have gap := (List.pairwise_append.mp gaps).2.2 f member e (by simp)
    simp only [Extent.stop] at gap
    simp only [ne_eq, decide_eq_true_eq]
    omega
  rw [searchedBlocks, list, List.dropWhile_append_of_pos before, List.dropWhile_cons_of_neg (by simp)]

/-- Where the search starts, in the list of the invariant. -/
theorem PageInv.hinted (inv : PageInv a h p live blocks) (free : 0 < (h.page p).units)
    (hint : Hint a h p bestSlob prevSlob) :
    ∃ l m, blocks = l ++ m ∧ m ≠ [] ∧ prevSlob = lastStart l ∧ searchedBlocks a h p bestSlob = m ∧
      FreeSeg a h.mem (bestSlob.getD (h.page p).free) m (a.pageEnd p) := by
  rcases hint with ⟨rfl, rfl⟩ | ⟨l, e, m, list, rfl, rfl⟩
  · exact ⟨[], blocks, rfl, inv.blocks_ne_nil free, rfl, inv.freeList_eq, inv.follows⟩
  · have skipped := inv.searchedBlocks_eq list
    rw [inv.freeList_eq] at list
    subst list
    obtain ⟨mid, _, rest⟩ := FreeSeg.append_iff.mp inv.follows
    have here := rest.cons_inv.1
    subst here
    exact ⟨l, e :: m, rfl, by simp, rfl, skipped, rest⟩

/-- When a call may be made: `slob_alloc` tries a page only while it has free
units, and only a free that does not hand the page back stays on the page. -/
def PageCall.Allowed (a : Arch) (p : Nat) (s : PageState) : PageCall → Prop
  | .alloc size align bestSlob prevSlob =>
      0 < (s.heap.page p).units ∧ 0 < size ∧ size ≤ a.pageSize ∧ Arch.AlignOk align ∧
        Hint a s.heap p bestSlob prevSlob
  | .free b => b ∈ s.live ∧ (s.heap.page p).units + a.slobUnitsOf b.size ≠ a.pageUnits
  | .write unit _ => ∃ b ∈ s.live, (b.extent a).Contains unit

/-- The same for every size that is an `int`, as `slob_free` takes it. -/
def PageCall.Permitted (a : Arch) (p : Nat) (s : PageState) : PageCall → Prop
  | .alloc size align bestSlob prevSlob =>
      0 < (s.heap.page p).units ∧ 0 < size ∧ size < 2 ^ 31 ∧ Arch.AlignOk align ∧
        Hint a s.heap p bestSlob prevSlob
  | .free b => b ∈ s.live ∧ (s.heap.page p).units + a.slobUnitsOf b.size ≠ a.pageUnits
  | .write unit _ => ∃ b ∈ s.live, (b.extent a).Contains unit

theorem PageCall.Allowed.permitted {s : PageState} {call : PageCall} (allowed : call.Allowed a p s) :
    call.Permitted a p s := by
  cases call with
  | alloc size align bestSlob prevSlob =>
    obtain ⟨free, positive, small, ok, hint⟩ := allowed
    have page : a.pageSize ≤ 2 ^ 30 := Nat.pow_le_pow_right (by decide) a.pageShift_le
    exact ⟨free, positive, by omega, ok, hint⟩
  | free b => exact allowed
  | write unit value => exact allowed

def pageCall (a : Arch) (p : Nat) (s : PageState) : PageCall → Except Fault PageState
  | .alloc size align bestSlob prevSlob =>
      match slobPageAlloc a s.heap p size align bestSlob prevSlob with
      | .error fault => .error fault
      | .ok (none, heap) => .ok { s with heap }
      | .ok (some addr, heap) => .ok ⟨heap, ⟨addr, size⟩ :: s.live⟩
  | .free b =>
      match slobFree a s.heap b.addr b.size with
      | .error fault => .error fault
      | .ok heap => .ok ⟨heap, s.live.erase b⟩
  | .write unit value =>
      .ok { s with heap := { s.heap with mem := Function.update s.heap.mem unit value } }

def PageStep (a : Arch) (p : Nat) (s : PageState) (call : PageCall) (t : PageState) : Prop :=
  call.Allowed a p s ∧ pageCall a p s call = .ok t

/-- Every call that may be made returns and keeps the invariant. -/
theorem pageCall_preserves (frame : a.Frame) {s : PageState} {call : PageCall}
    (inv : PageInv a s.heap frame.number s.live blocks) (allowed : call.Permitted a frame.number s) :
    ∃ t blocks', pageCall a frame.number s call = .ok t ∧
      PageInv a t.heap frame.number t.live blocks' := by
  cases call with
  | alloc size align bestSlob prevSlob =>
    obtain ⟨free, positive, _, ok, hint⟩ := allowed
    obtain ⟨l, m, rfl, some', prev, _, start⟩ := inv.hinted free hint
    simp only [pageCall]
    rcases inv.alloc frame.fits positive ok some' prev start with
      ⟨_, result⟩ | ⟨_, _, _, addr, mem, free', _, _, _, _, result, after, _⟩
    · exact ⟨s, _, by rw [result], inv⟩
    · exact ⟨_, _, by rw [result], after⟩
  | free b =>
    obtain ⟨member, kept⟩ := allowed
    obtain ⟨heap, blocks', result, after, _⟩ :=
      (inv.perm (List.perm_cons_erase member)).free frame.nonnull kept
    exact ⟨⟨heap, s.live.erase b⟩, blocks', by simp only [pageCall, result], after⟩
  | write unit value =>
    obtain ⟨b, member, inside⟩ := allowed
    refine ⟨_, blocks, rfl, ?_⟩
    obtain ⟨low, _, high⟩ := inv.inPage b member
    have bounds := inside
    simp only [Extent.Contains, LiveBlock.extent] at bounds
    have used : ¬ Covers blocks unit := fun covered =>
      (inv.tiles unit (by omega) (by omega)).mp covered
        ⟨b.extent a, List.mem_map.mpr ⟨b, member, rfl⟩, inside⟩
    refine { inv with follows := inv.follows.frame inv.separated fun x covered => ?_ }
    exact Function.update_of_ne (fun same : x = unit => used (same ▸ covered)) _ _

/-- A step of a history with sizes of any `int`. -/
def HistoryStep (a : Arch) (p : Nat) (s : PageState) (call : PageCall) (t : PageState) : Prop :=
  call.Permitted a p s ∧ pageCall a p s call = .ok t

theorem PageStep.history {s t : PageState} {call : PageCall} (step : PageStep a p s call t) :
    HistoryStep a p s call t := ⟨step.1.permitted, step.2⟩

theorem free_live {s t : PageState} {b : LiveBlock} (step : HistoryStep a p s (.free b) t) :
    t.live = s.live.erase b := by
  have result := step.2
  simp only [pageCall] at result
  split at result
  · cases result
  · cases result
    rfl

theorem pageRun_invariant (frame : a.Frame) {s t : PageState} {calls : List PageCall}
    (run : Run (HistoryStep a frame.number) s calls t)
    (start : ∃ blocks, PageInv a s.heap frame.number s.live blocks) :
    ∃ blocks, PageInv a t.heap frame.number t.live blocks := by
  refine run.invariant (fun s => ∃ blocks, PageInv a s.heap frame.number s.live blocks) ?_ start
  rintro s call t ⟨_, inv⟩ ⟨allowed, result⟩
  obtain ⟨t', blocks', result', after⟩ := pageCall_preserves frame inv allowed
  rw [result] at result'
  cases result'
  exact ⟨blocks', after⟩

/-- The page invariant. After any history of calls on a page that starts as
`slob_alloc` sets it up, the list followed from `sp->free` is strictly increasing,
stays in the page and ends at the page end; its blocks are disjoint and never
adjacent; free and live blocks tile the page; the free sizes sum to `sp->units`
and the page is marked exactly when that is positive. No call faults. -/
theorem slob_page_invariant (a : Arch) (frame : a.Frame) (heap : Heap) (list : SizeClass)
    (calls : List PageCall) (s : PageState)
    (run : Run (PageStep a frame.number) ⟨freshPage a heap (a.pageStart frame.number) list, []⟩ calls s) :
    let p := frame.number
    let free := freeList a s.heap p
    let live := extents a s.live
    FreeSeg a s.heap.mem (s.heap.page p).free free (a.pageEnd p) ∧
    free.Pairwise (fun e f => e.start < f.start) ∧
    (∀ e ∈ free, a.pageStart p ≤ e.start ∧ 0 < e.len ∧ e.stop ≤ a.pageEnd p) ∧
    free.Pairwise (fun e f => e.Disjoint f ∧ e.stop ≠ f.start ∧ f.stop ≠ e.start) ∧
    (∀ e ∈ free, ∀ b ∈ live, e.Disjoint b) ∧
    (∀ x, a.pageStart p ≤ x → x < a.pageEnd p → (Covers free x ∨ Covers live x)) ∧
    (live.Pairwise Extent.Disjoint ∧ ∀ b ∈ live, a.pageStart p ≤ b.start ∧ b.stop ≤ a.pageEnd p) ∧
    total free + total live = a.pageUnits ∧
    (s.heap.page p).units = total free ∧
    ((s.heap.page p).slobFree = true ↔ 0 < (s.heap.page p).units) ∧
    ∀ call : PageCall, call.Allowed a p s → ∃ t, pageCall a p s call = .ok t := by
  obtain ⟨blocks, inv⟩ := pageRun_invariant frame (run.mono PageStep.history) ⟨_, PageInv.fresh heap list⟩
  simp only [inv.freeList_eq]
  have gaps := Spaced.pairwise inv.separated
  refine ⟨inv.follows, ?_, fun e member => Spaced.bounds inv.separated member, ?_, ?_, ?_, ⟨?_, ?_⟩,
    inv.whole, inv.units, inv.marked, fun call allowed => ?_⟩
  · refine gaps.imp_of_mem fun {e f} first _ gap => ?_
    have := (Spaced.bounds inv.separated first).2.1
    simp only [Extent.stop] at gap
    omega
  · refine gaps.imp_of_mem fun {e f} _ second gap => ?_
    have := (Spaced.bounds inv.separated second).2.1
    simp only [Extent.Disjoint, Extent.stop] at *
    omega
  · intro e free b used
    obtain ⟨c, owned, rfl⟩ := List.mem_map.mp used
    exact (inv.disjoint free owned).symm
  · intro x low high
    by_cases used : Covers (extents a s.live) x
    · exact .inr used
    · exact .inl ((inv.tiles x low high).mpr used)
  · exact List.pairwise_map.mpr inv.apart
  · intro b used
    obtain ⟨c, owned, rfl⟩ := List.mem_map.mp used
    obtain ⟨low, _, high⟩ := inv.inPage c owned
    exact ⟨low, high⟩
  · obtain ⟨t, _, result, _⟩ := pageCall_preserves frame inv allowed.permitted
    exact ⟨t, result⟩

/-- Three blocks are handed out and the middle one, units 2053 to 2062, is freed. -/
theorem slob_page_invariant_after_free :
    ∃ s : PageState,
      Run (PageStep x86 1) ⟨freshPage x86 Heap.empty (x86.pageStart 1) .pico, []⟩
        [.alloc 9 0 none none, .alloc 20 2 none none, .alloc 30 0 none none, .free ⟨2053, 20⟩] s ∧
      s.live = [⟨2063, 30⟩, ⟨2048, 9⟩] ∧ (s.heap.page 1).units = total (freeList x86 s.heap 1) ∧
      Covers (freeList x86 s.heap 1) 2053 := by
  have small (size : Nat) (align : Int) (positive : 0 < size) (less : size ≤ x86.pageSize) (ok : Arch.AlignOk align)
      (s : PageState) (free : 0 < (s.heap.page 1).units) : PageCall.Allowed x86 1 s (.alloc size align none none) :=
    ⟨free, positive, less, ok, .inl ⟨rfl, rfl⟩⟩
  have handed : ∃ u, Run (PageStep x86 1) ⟨freshPage x86 Heap.empty (x86.pageStart 1) .pico, []⟩
      [.alloc 9 0 none none, .alloc 20 2 none none, .alloc 30 0 none none] u ∧
      u.live = [⟨2063, 30⟩, ⟨2053, 20⟩, ⟨2048, 9⟩] ∧ (u.heap.page 1).units = 2018 :=
    ⟨_, .cons ⟨small 9 0 (by decide) (by decide) (.inl rfl) _ (by decide), rfl⟩
      (.cons ⟨small 20 2 (by decide) (by decide) (.inr ⟨1, by decide, by decide⟩) _ (by decide), rfl⟩
        (.cons ⟨small 30 0 (by decide) (by decide) (.inl rfl) _ (by decide), rfl⟩ (.nil _))), rfl, rfl⟩
  obtain ⟨u, run, live, units⟩ := handed
  obtain ⟨_, inv⟩ := pageRun_invariant Arch.x86Frame (run.mono PageStep.history) ⟨_, PageInv.fresh Heap.empty .pico⟩
  have allowed : PageCall.Allowed x86 1 u (.free ⟨2053, 20⟩) :=
    ⟨by rw [live]; decide, by rw [units]; decide⟩
  obtain ⟨t, _, result, _⟩ := pageCall_preserves Arch.x86Frame inv allowed.permitted
  have left : t.live = [⟨2063, 30⟩, ⟨2048, 9⟩] := by
    rw [free_live ⟨allowed.permitted, result⟩, live]
    rfl
  have whole := run.append (.cons ⟨allowed, result⟩ (.nil t))
  have safe := slob_page_invariant x86 Arch.x86Frame Heap.empty .pico _ t whole
  refine ⟨t, whole, left, safe.2.2.2.2.2.2.2.2.1, ?_⟩
  refine (safe.2.2.2.2.2.1 2053 (by decide) (by decide)).resolve_right ?_
  rw [left]
  rintro ⟨e, member, inside⟩
  revert e
  decide

end Cs544.Slob
