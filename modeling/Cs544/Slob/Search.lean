import Cs544.Slob.Alloc
import Cs544.Slob.PageInvariant

/-! What the two searches of the SLOB allocator find.

`best_fit` looks for the smallest block with room on a list of pages, and breaks out at
a block that its request and the padding in front of it fill exactly.
`slob_page_alloc` takes the first block with room, from the hinted block on.
-/

set_option autoImplicit false

namespace Cs544.Slob

open Cs544.Library

variable {a : Arch} {h : Heap} {p units size : Nat} {align : Int} {pages : List Nat} {bs : BestSlob}
  {live : List LiveBlock} {blocks : List Extent} {e : Extent}

theorem PageInv.walkable (inv : PageInv a h p live blocks) (free : 0 < (h.page p).units) : Walkable a h p :=
  ⟨blocks, inv.freeList_eq, inv.blocks_ne_nil free, inv.length_le, inv.follows, Spaced.ordered inv.separated⟩

/-! ## best_fit -/

/-- `bs` holds block `e` of page `sp` and the block in front of it there. -/
structure BestSlob.Holds (a : Arch) (h : Heap) (bs : BestSlob) (sp : Nat) (e : Extent) : Prop where
  page : bs.page = some sp
  slob : bs.slob = some e.start
  size : bs.size = e.len
  prev : ∃ before after, freeList a h sp = before ++ e :: after ∧ bs.prev = lastStart before

/-- If a block is selected then it fits, and no block that fits has fewer units. -/
def SelectsSmallest (a : Arch) (h : Heap) (units : Nat) (align : Int) (pages : List Nat) (bs : BestSlob) : Prop :=
  bs.slob.isSome = true → ∃ sp ∈ pages, ∃ e, bs.Holds a h sp e ∧ Fits a units align e ∧
    ∀ q ∈ pages, ∀ f ∈ freeList a h q, Fits a units align f → e.len ≤ f.len

/-- Behind a block that request and padding fill exactly, with no block that fits and is
as small before it, there is no smaller block that fits. -/
def ExactFitSmallest (a : Arch) (h : Heap) (units : Nat) (align : Int) (pages : List Nat) : Prop :=
  ∀ before e after, pages.flatMap (freeList a h) = before ++ e :: after → FitsExactly a units align e →
    (∀ f ∈ before, Fits a units align f → e.len < f.len) → ∀ f ∈ after, Fits a units align f → e.len ≤ f.len

theorem FitsExactly.fits (exact : FitsExactly a units align e) : Fits a units align e := Int.le_of_eq exact.symm

theorem map_block_pageCandidates (sp : Nat) (prev : Option Nat) (l : List Extent) :
    (pageCandidates sp prev l).map Candidate.block = l := by
  induction l generalizing prev with
  | nil => rfl
  | cons e rest ih => rw [pageCandidates, List.map_cons, ih]

theorem map_block_candidates (pages : List Nat) :
    (candidates a h pages).map Candidate.block = pages.flatMap (freeList a h) := by
  simp only [candidates, List.map_flatMap, map_block_pageCandidates]

/-- What holds of a selected block wherever the search broke out. -/
theorem bestCandidate_holds {c : Candidate}
    (best : (bestCandidate a units align (candidates a h pages) none).1 = some c) :
    c.page ∈ pages ∧ (bestSlobOf a h (some c)).Holds a h c.page c.block ∧ Fits a units align c.block := by
  rcases select_source best with none' | ⟨member, fits⟩
  · cases none'
  · obtain ⟨listed, place⟩ := mem_candidates.mp member
    exact ⟨listed, ⟨rfl, rfl, rfl, place⟩, fits⟩

theorem selectsSmallest_iff :
    SelectsSmallest a h units align pages
        (bestSlobOf a h (bestCandidate a units align (candidates a h pages) none).1) ↔
      ∀ c, (bestCandidate a units align (candidates a h pages) none).1 = some c →
        ∀ d ∈ candidates a h pages, Fits a units align d.block → c.block.len ≤ d.block.len := by
  constructor
  · intro smallest c best d member fits
    rw [best] at smallest
    obtain ⟨sp, _, e, holds, _, least⟩ := smallest rfl
    obtain ⟨q, listed, free⟩ := exists_candidate.mp ⟨d, member, rfl⟩
    have same : (c.block.len : Int) = e.len := holds.size
    have := least q listed d.block free fits
    omega
  · intro least selected
    rw [bestSlobOf_slob_isSome] at selected
    obtain ⟨c, best⟩ := Option.isSome_iff_exists.mp selected
    obtain ⟨listed, holds, fits⟩ := bestCandidate_holds best
    rw [best]
    refine ⟨c.page, listed, c.block, holds, fits, fun q member f free fits => ?_⟩
    obtain ⟨d, here, rfl⟩ := exists_candidate.mpr ⟨q, member, free⟩
    exact least c best d here fits

/-- `best_fit`, for a size whose `units` are an `int`, selects a smallest block with room
exactly when no smaller one comes behind the block it breaks out at. -/
theorem best_fit_smallest_iff (a : Arch) (h : Heap) (pages : List Nat) (size : Nat) (align : Int)
    (_small : size < 2 ^ 31) (walk : ∀ sp ∈ pages, Walkable a h sp) :
    ∃ bs, bestFitPages a h (a.slobUnitsOf size) align pages .none = .ok bs ∧
      (SelectsSmallest a h (a.slobUnitsOf size) align pages bs ↔
        ExactFitSmallest a h (a.slobUnitsOf size) align pages) := by
  refine ⟨_, bestFitPages_eq pages none walk (by simp), ?_⟩
  rw [selectsSmallest_iff, bestCandidate, select_smallest_iff, ExactFitSmallest, ← map_block_candidates]
  constructor
  · intro unharmed before e after split exact larger f behind fits
    obtain ⟨front, rest, list, rfl, tail⟩ := List.map_eq_append_iff.mp split
    obtain ⟨c, back, rfl, rfl, rfl⟩ := List.map_eq_cons_iff.mp tail
    obtain ⟨d, member, rfl⟩ := List.mem_map.mp behind
    refine unharmed front c back list ⟨exact.fits, exact, fun y front' => ?_⟩ d member fits
    exact larger y.block (List.mem_map_of_mem front')
  · intro unharmed before c after split stop d behind fits
    refine unharmed (before.map Candidate.block) c.block (after.map Candidate.block) (by simp [split]) stop.2.1
      (fun f front => ?_) d.block (List.mem_map_of_mem behind) fits
    obtain ⟨y, member, rfl⟩ := List.mem_map.mp front
    exact stop.2.2 y member

/-- Without padding a block that is filled exactly is as small as can be. -/
theorem exactFitSmallest_unaligned (h : Heap) (units : Nat) (pages : List Nat) :
    ExactFitSmallest a h units 0 pages := by
  intro before e after _ exact _ f _ fits
  simp only [FitsExactly, Fits, deltaAt, ne_eq, not_true_eq_false, if_false] at exact fits
  omega

/-- A page with free blocks of four and of three units, two and eight units behind its
start, and live blocks everywhere else. -/
def twoBlocks : Heap where
  mem := setSlob x86 (setSlob x86 (fun _ => 0) 2050 4 2056) 2056 3 4096
  page := Function.update (fun _ => ⟨0, 0, false, false⟩) 1 ⟨7, 2050, true, true⟩
  lists c := if c = .femto then [1] else []

theorem twoBlocks_inv :
    PageInv x86 twoBlocks 1 [⟨2048, 4⟩, ⟨2054, 4⟩, ⟨2059, 4074⟩] [⟨2050, 4⟩, ⟨2056, 3⟩] where
  follows := ⟨rfl, 2056, ⟨by decide, by decide, by decide⟩, rfl, 4096, ⟨by decide, by decide, by decide⟩, rfl⟩
  separated := by
    refine ⟨by decide, by decide, by decide, by decide, by decide, by decide, trivial⟩
  inPage := by decide
  apart := by
    simp only [List.pairwise_cons, List.mem_cons, forall_eq_or_imp, List.not_mem_nil, false_imp_iff, implies_true,
      List.Pairwise.nil, and_true, Extent.Disjoint]
    decide
  tiles := by
    intro x low high
    have start : x86.pageStart 1 = 2048 := rfl
    have stop : x86.pageEnd 1 = 4096 := rfl
    have first : x86.slobUnitsOf 4 = 2 := rfl
    have last : x86.slobUnitsOf 4074 = 2037 := rfl
    simp only [extents_cons, extents_nil, covers_cons, covers_nil, or_false, LiveBlock.extent, Extent.Contains,
      first, last]
    omega
  units := rfl
  whole := by decide
  marked := by decide

theorem twoBlocks_walkable : ∀ sp ∈ [1], Walkable x86 twoBlocks sp := by
  intro sp member
  rw [List.mem_singleton.mp member]
  exact twoBlocks_inv.walkable (by decide)

theorem best_fit_smallest_two_blocks :
    ∃ bs, bestFitPages x86 twoBlocks (x86.slobUnitsOf 4) 0 [1] .none = .ok bs ∧
      SelectsSmallest x86 twoBlocks (x86.slobUnitsOf 4) 0 [1] bs := by
  obtain ⟨bs, result, smallest⟩ :=
    best_fit_smallest_iff x86 twoBlocks [1] 4 0 (by decide) twoBlocks_walkable
  exact ⟨bs, result, smallest.mpr (exactFitSmallest_unaligned twoBlocks _ _)⟩

/-- Two units at a multiple of eight bytes fill the block of four together with its
padding; the block of three behind it needs no padding. -/
theorem best_fit_breaks_out_early :
    ¬ ∀ (a : Arch) (h : Heap) (pages : List Nat) (size : Nat) (align : Int), 0 < size → size < 2 ^ 31 →
      Arch.AlignOk align → (∀ sp ∈ pages, Walkable a h sp) →
      ∀ bs, bestFitPages a h (a.slobUnitsOf size) align pages .none = .ok bs →
        SelectsSmallest a h (a.slobUnitsOf size) align pages bs := by
  intro smallest
  have found : bestFitPages x86 twoBlocks (x86.slobUnitsOf 4) 8 [1] .none =
      .ok ⟨some 1, none, some 2050, some 2056, 4⟩ := by decide +kernel
  obtain ⟨sp, _, e, holds, _, least⟩ :=
    smallest x86 twoBlocks [1] 4 8 (by decide) (by decide) (.inr ⟨3, by decide, rfl⟩) twoBlocks_walkable _ found rfl
  have size : (4 : Int) = e.len := holds.size
  have fewer := least 1 (by simp) ⟨2056, 3⟩ (by rw [twoBlocks_inv.freeList_eq]; simp) (by decide +kernel)
  simp only at fewer
  omega

/-! ## slob_page_alloc -/

/-- What a successful `slob_page_alloc` leaves behind: the first block with room from the
start of the search on has lost the aligned range, and no other unit has left the list. -/
structure FirstFit (a : Arch) (h h' : Heap) (p size : Nat) (align : Int) (searched : List Extent) (addr : Nat) :
    Prop where
  first : ∃ before e after, searched = before ++ e :: after ∧ (∀ f ∈ before, ¬ Fits a (a.slobUnitsOf size) align f) ∧
    Fits a (a.slobUnitsOf size) align e ∧ (addr : Int) = e.start + deltaAt a e.start align ∧
    e.start ≤ addr ∧ addr + a.slobUnitsOf size ≤ e.stop
  aligned : align ≠ 0 → align ∣ (a.slobUnit * addr : Nat)
  removed : ∀ x, Covers (freeList a h' p) x ↔
    Covers (freeList a h p) x ∧ ¬ (addr ≤ x ∧ x < addr + a.slobUnitsOf size)

theorem PageInv.firstFit (frame : a.Frame) (inv : PageInv a h frame.number live blocks)
    (free : 0 < (h.page frame.number).units) (positive : 0 < size) (ok : Arch.AlignOk align)
    {bestSlob prevSlob : Option Nat} (hint : Hint a h frame.number bestSlob prevSlob) :
    ((∀ e ∈ searchedBlocks a h frame.number bestSlob, ¬ Fits a (a.slobUnitsOf size) align e) ∧
      slobPageAlloc a h frame.number size align bestSlob prevSlob = .ok (none, h)) ∨
    ∃ addr h', slobPageAlloc a h frame.number size align bestSlob prevSlob = .ok (some addr, h') ∧
      FirstFit a h h' frame.number size align (searchedBlocks a h frame.number bestSlob) addr := by
  obtain ⟨l, m, rfl, some', prev, searched, start⟩ := inv.hinted free hint
  rw [searched]
  rcases inv.alloc frame.fits positive ok some' prev start with
    missing | ⟨m₁, e, m₂, addr, mem, free', split, passed, fits, place, result, after, low, high, divides, _⟩
  · exact .inl missing
  · refine .inr ⟨addr, _, result, ⟨m₁, e, m₂, split, passed, fits, place, low, high⟩, divides, fun x => ?_⟩
    subst split
    rw [← List.append_assoc] at inv
    rw [after.freeList_eq, inv.freeList_eq, covers_taken inv.separated low high]
    exact Iff.rfl

/-- The block and predecessor `best_fit` selects are a hint. -/
theorem bestFitPages_hint (walk : ∀ sp ∈ pages, Walkable a h sp)
    (found : bestFitPages a h units align pages .none = .ok bs) (here : bs.page = some p) :
    ∃ e, bs.Holds a h p e ∧ Fits a units align e ∧ Hint a h p bs.slob bs.prev := by
  rw [show BestSlob.none = bestSlobOf a h none from rfl, bestFitPages_eq pages none walk (by simp)] at found
  cases found
  cases best : (bestCandidate a units align (candidates a h pages) none).1 with
  | none =>
    rw [best] at here
    cases here
  | some c =>
    rw [best] at here
    obtain ⟨_, holds, fits⟩ := bestCandidate_holds best
    obtain rfl : c.page = p := Option.some.inj here
    obtain ⟨before, after, list, prev⟩ := holds.prev
    exact ⟨c.block, holds, fits, .inr ⟨before, c.block, after, list, rfl, prev⟩⟩

/-- `slob_page_alloc` is an exact first-fit search, for a size whose `units` are an
`int`. It returns; it returns `NULL` exactly when no block from the starting block on has
room, and leaves the page alone then; else it takes the aligned range out of the first
block with room. With what `best_fit` selected it succeeds inside the selected block. -/
theorem slob_page_alloc_first_fit (a : Arch) (frame : a.Frame) (h : Heap) (live : List LiveBlock)
    (blocks : List Extent) (size : Nat) (align : Int) (inv : PageInv a h frame.number live blocks)
    (free : 0 < (h.page frame.number).units) (positive : 0 < size) (_small : size < 2 ^ 31)
    (ok : Arch.AlignOk align) :
    (∀ bestSlob prevSlob, Hint a h frame.number bestSlob prevSlob →
      ∃ result h', slobPageAlloc a h frame.number size align bestSlob prevSlob = .ok (result, h') ∧
        (result = none ↔
          ∀ e ∈ searchedBlocks a h frame.number bestSlob, ¬ Fits a (a.slobUnitsOf size) align e) ∧
        (result = none → h' = h) ∧
        ∀ addr, result = some addr →
          FirstFit a h h' frame.number size align (searchedBlocks a h frame.number bestSlob) addr) ∧
    ∀ pages bs, (∀ sp ∈ pages, Walkable a h sp) →
      bestFitPages a h (a.slobUnitsOf size) align pages .none = .ok bs → bs.page = some frame.number →
      ∃ slob addr h', bs.slob = some slob ∧
        slobPageAlloc a h frame.number size align bs.slob bs.prev = .ok (some addr, h') ∧
        slob ≤ addr ∧ (addr + a.slobUnitsOf size : Int) ≤ slob + bs.size := by
  constructor
  · intro bestSlob prevSlob hint
    rcases inv.firstFit frame free positive ok hint with ⟨none', result⟩ | ⟨addr, h', result, fit⟩
    · exact ⟨none, h, result, by simpa using none', fun _ => rfl, by simp⟩
    · refine ⟨some addr, h', result, ?_, by simp, fun other same => Option.some.inj same ▸ fit⟩
      obtain ⟨before, e, after, split, _, fits, _⟩ := fit.first
      simp only [reduceCtorEq, false_iff]
      intro unfit
      exact unfit e (by simp [split]) fits
  · intro pages bs walk found here
    obtain ⟨e, holds, fits, hint⟩ := bestFitPages_hint walk found here
    obtain ⟨before, after, list, _⟩ := holds.prev
    have searched : searchedBlocks a h frame.number bs.slob = e :: after := by
      rw [holds.slob]
      exact inv.searchedBlocks_eq list
    rcases inv.firstFit frame free positive ok hint with ⟨none', _⟩ | ⟨addr, h', result, fit⟩
    · exact absurd fits (none' e (by simp [searched]))
    · -- The selected block is the first one searched, and it has room.
      obtain ⟨passed, f, rest, split, unfit, _, _, low, high⟩ := fit.first
      rw [searched] at split
      cases passed with
      | nil =>
        obtain ⟨rfl, rfl⟩ : e = f ∧ after = rest := by simpa using split
        refine ⟨e.start, addr, h', holds.slob, result, low, ?_⟩
        rw [holds.size]
        simp only [Extent.stop] at high
        omega
      | cons g passed =>
        obtain ⟨rfl, _⟩ : e = g ∧ _ := by simpa using split
        exact absurd fits (unfit e (by simp))

/-- The block that `best_fit` selects for two units aligned to eight bytes: the range it
loses starts behind the padding. -/
theorem slob_page_alloc_first_fit_two_blocks :
    ∃ addr h', slobPageAlloc x86 twoBlocks 1 4 8 (some 2050) none = .ok (some addr, h') ∧
      FirstFit x86 twoBlocks h' 1 4 8 (searchedBlocks x86 twoBlocks 1 (some 2050)) addr := by
  obtain ⟨search, _⟩ := slob_page_alloc_first_fit x86 Arch.x86Frame twoBlocks _ _ 4 8 twoBlocks_inv (by decide)
    (by decide) (by decide) (.inr ⟨3, by decide, rfl⟩)
  obtain ⟨result, h', call, missing, _, fit⟩ :=
    search (some 2050) none (.inr ⟨[], ⟨2050, 4⟩, [⟨2056, 3⟩], twoBlocks_inv.freeList_eq, rfl, rfl⟩)
  have searched : searchedBlocks x86 twoBlocks Arch.x86Frame.number (some 2050) = [⟨2050, 4⟩, ⟨2056, 3⟩] :=
    twoBlocks_inv.searchedBlocks_eq (l := []) twoBlocks_inv.freeList_eq
  cases result with
  | none =>
    have unfit := missing.mp rfl ⟨2050, 4⟩ (by simp [searched])
    exact absurd (by decide +kernel) unfit
  | some addr => exact ⟨addr, h', call, fit addr rfl⟩

end Cs544.Slob
