import Cs544.Library.Selection
import Cs544.Slob.PageOps

/-! `best_fit` and `slob_alloc`.

`best_fit` searches every page of one list; `slob_alloc` calls it, scans the list
when it was told a page, and asks the page allocator for a page otherwise. The
answer of the page allocator is an argument of the model.
-/

set_option autoImplicit false

namespace Cs544.Slob

open Cs544.Library

variable (a : Arch)

/-- `struct best_slob`. -/
structure BestSlob where
  page : Option Nat
  prev : Option Nat
  slob : Option Nat
  next : Option Nat
  size : Int
  deriving DecidableEq, Repr

def BestSlob.none : BestSlob := ⟨.none, .none, .none, .none, 0⟩

/-- The blocks of one page, with whether the search broke out on an exact fit. -/
def bestFitPage (h : Heap) (sp units : Nat) (align : Int) :
    Nat → Option Nat → Nat → BestSlob → Except Fault (BestSlob × Bool)
  | 0, _, _, _ => .error .diverges
  | fuel + 1, prev, cur, bs =>
      let avail := slobUnits h.mem cur
      let room := units + deltaAt a cur align
      if avail ≥ room ∧ (avail < bs.size ∨ bs.size = 0) then
        let bs : BestSlob := ⟨some sp, prev, some cur, some (slobNext a h.mem cur), avail⟩
        if avail = room then .ok (bs, true)
        else if slobLast a h.mem cur then .ok (bs, false)
        else bestFitPage h sp units align fuel (some cur) (slobNext a h.mem cur) bs
      else if slobLast a h.mem cur then .ok (bs, false)
      else bestFitPage h sp units align fuel (some cur) (slobNext a h.mem cur) bs

/-- The pages of one list. -/
def bestFitPages (h : Heap) (units : Nat) (align : Int) : List Nat → BestSlob → Except Fault BestSlob
  | [], bs => .ok bs
  | sp :: rest, bs =>
      match bestFitPage a h sp units align a.pageUnits .none (h.page sp).free bs with
      | .error fault => .error fault
      | .ok (bs, true) => .ok bs
      | .ok (bs, false) => bestFitPages h units align rest bs

/-- The return value of `best_fit`. Its three pointer parameters are passed by
value: what the function assigns to them is lost when it returns, so they are
neither read nor part of the result. -/
def bestFit (h : Heap) (list : SizeClass) (size : Nat) (align : Int) (_page _best _prev : Option Nat) :
    Except Fault Nat :=
  match bestFitPages a h (a.slobUnitsOf size) align (h.lists list) .none with
  | .error fault => .error fault
  | .ok bs => .ok (if bs.slob.isSome then 1 else 0)

/-- `list_move_tail(slob_list, prev->next)`: the list starts at the page behind
`prev` from now on. `index` is the position of that page. -/
def startSearchAt (l : List Nat) (index : Nat) : List Nat :=
  if index < l.length ∧ index ≠ 0 then l.rotate index else l

/-- The loop over the partially free pages. The loop variable is overwritten with
`best_page` in every round, so the next round goes on from behind that page. -/
def scanPages (h : Heap) (list : SizeClass) (size : Nat) (align : Int) (bestPage : Nat)
    (bestSlob prevSlob : Option Nat) : Nat → Option Nat → Except Fault (Option Nat × Heap)
  | 0, _ => .error .diverges
  | _ + 1, none => .ok (none, h)
  | fuel + 1, some _ =>
      let index := (h.lists list).idxOf bestPage
      let next := (h.lists list)[index + 1]?
      if (h.page bestPage).units < a.slobUnitsOf size then
        scanPages h list size align bestPage bestSlob prevSlob fuel next
      else
        match slobPageAlloc a h bestPage size align bestSlob prevSlob with
        | .error fault => .error fault
        | .ok (none, _) => scanPages h list size align bestPage bestSlob prevSlob fuel next
        | .ok (some b, h') =>
            .ok (some b,
              { h' with lists := Function.update h'.lists list (startSearchAt (h'.lists list) index) })

/-- `memset(b, 0, size)` on little-endian units; a last unit that is only partly
covered keeps its other bytes. -/
def memsetZero (mem : Memory) (b size : Nat) : Memory := fun x =>
  if b ≤ x ∧ x < b + size / a.slobUnit then 0
  else if x = b + size / a.slobUnit ∧ size % a.slobUnit ≠ 0 then
    mem x - mem x % 2 ^ (8 * (size % a.slobUnit))
  else mem x

/-- The result of `slob_alloc`, with the number of calls of `slob_new_pages`. -/
structure AllocResult where
  block : Option Nat
  heap : Heap
  newPages : Nat

/-- `if (unlikely((gfp & __GFP_ZERO) && b)) memset(b, 0, size);` -/
def zeroBlock (h : Heap) (zero : Bool) (b size : Nat) : Heap :=
  if zero then { h with mem := memsetZero a h.mem b size } else h

variable {a} in
/-- `slob_alloc(size, gfp, align, -1)`; `zero` is `gfp & __GFP_ZERO` and `newPage`
what `slob_new_pages` returns if it is called. -/
def slobAlloc (h : Heap) (size : Nat) (zero : Bool) (align : Int) (newPage : Option a.Frame) :
    Except Fault AllocResult :=
  let list := slobList size
  let bestPage : Option Nat := none
  let bestSlob : Option Nat := none
  let prevSlob : Option Nat := none
  match bestFit a h list size align bestPage bestSlob prevSlob with
  | .error fault => .error fault
  | .ok _ =>
      -- `best_fit` worked on copies: `best_page` is still NULL here.
      let scanned : Except Fault (Option Nat × Heap) := match bestPage with
        | none => .ok (none, h)
        | some sp =>
            scanPages a h list size align sp bestSlob prevSlob ((h.lists list).length + 2)
              (h.lists list).head?
      match scanned with
      | .error fault => .error fault
      | .ok (some b, h) => .ok ⟨some b, zeroBlock a h zero b size, 0⟩
      | .ok (none, h) =>
          match newPage with
          | none => .ok ⟨none, h, 1⟩
          | some frame =>
              let h := freshPage a h (a.pageStart frame.number) list
              match slobPageAlloc a h frame.number size align none none with
              | .error fault => .error fault
              -- BUG_ON(!b)
              | .ok (none, _) => .error .bug
              | .ok (some b, h) => .ok ⟨some b, zeroBlock a h zero b size, 1⟩

/-! ## What the search selects -/

/-- A block the search looks at, with its page and the block in front of it there. -/
structure Candidate where
  page : Nat
  prev : Option Nat
  block : Extent
  deriving DecidableEq, Repr

def pageCandidates (sp : Nat) : Option Nat → List Extent → List Candidate
  | _, [] => []
  | prev, e :: rest => ⟨sp, prev, e⟩ :: pageCandidates sp (some e.start) rest

/-- All blocks of the pages of a list, in the order of the search. -/
def candidates (h : Heap) (pages : List Nat) : List Candidate :=
  pages.flatMap fun sp => pageCandidates sp none (freeList a h sp)

/-- The test of the search for breaking out. -/
def FitsExactly (units : Nat) (align : Int) (e : Extent) : Prop := (e.len : Int) = units + deltaAt a e.start align

instance (units : Nat) (align : Int) (e : Extent) : Decidable (FitsExactly a units align e) :=
  inferInstanceAs (Decidable (_ = _))

/-- The search as a scan for the block with the fewest units. -/
def bestCandidate (units : Nat) (align : Int) : List Candidate → Option Candidate → Option Candidate × Bool :=
  select (fun c => Fits a units align c.block) (fun c => FitsExactly a units align c.block) (fun c => c.block.len)

/-- `bs` with a candidate stored in it. -/
def bestSlobOf (h : Heap) : Option Candidate → BestSlob
  | none => .none
  | some c => ⟨some c.page, c.prev, some c.block.start, some (slobNext a h.mem c.block.start), c.block.len⟩

variable {a} {h : Heap} {p units : Nat} {align : Int} {l m : List Extent} {best : Option Candidate}

@[simp] theorem bestSlobOf_slob_isSome : (bestSlobOf a h best).slob.isSome = best.isSome := by
  cases best <;> rfl

/-- `bs.size` is zero exactly as long as nothing was found. -/
theorem improves_iff (some_units : ∀ c, best = some c → 0 < c.block.len) (n : Nat) :
    ((n : Int) < (bestSlobOf a h best).size ∨ (bestSlobOf a h best).size = 0) ↔
      best.all (fun c => n < c.block.len) = true := by
  cases best with
  | none => simp [bestSlobOf, BestSlob.none]
  | some c =>
    have positive := some_units c rfl
    simp only [bestSlobOf, Option.all_some, decide_eq_true_eq]
    omega

theorem bestFitPage_eq (units : Nat) (align : Int) (m : List Extent) (fuel cur : Nat) (prev : Option Nat)
    (best : Option Candidate)
    (seg : FreeSeg a h.mem cur m (a.pageEnd p)) (sep : Spaced 0 (a.pageStart p) m (a.pageEnd p))
    (some' : m ≠ []) (enough : m.length ≤ fuel) (some_units : ∀ c, best = some c → 0 < c.block.len) :
    bestFitPage a h p units align fuel prev cur (bestSlobOf a h best) =
      .ok (bestSlobOf a h (bestCandidate a units align (pageCandidates p prev m) best).1,
        (bestCandidate a units align (pageCandidates p prev m) best).2) := by
  induction m generalizing fuel cur prev best with
  | nil => exact absurd rfl some'
  | cons e rest ih =>
    have last := slobLast_iff seg sep
    obtain ⟨rfl, size, tail⟩ := seg.cons_inv
    obtain ⟨fuel, rfl⟩ : ∃ k, fuel = k + 1 := ⟨fuel - 1, by simp only [List.length_cons] at enough; omega⟩
    have order : Spaced 0 (a.pageStart p) rest (a.pageEnd p) :=
      sep.2.2.2.weaken (by have := sep.1; simp only [Extent.stop]; omega)
    -- What happens behind block `e`, whatever was selected so far.
    have onward (best : Option Candidate) (some_units : ∀ c, best = some c → 0 < c.block.len) :
        (if slobLast a h.mem e.start then .ok (bestSlobOf a h best, false)
          else bestFitPage a h p units align fuel (some e.start) (slobNext a h.mem e.start) (bestSlobOf a h best)) =
        (.ok (bestSlobOf a h (bestCandidate a units align (pageCandidates p (some e.start) rest) best).1,
          (bestCandidate a units align (pageCandidates p (some e.start) rest) best).2) : Except Fault _) := by
      by_cases final : rest = []
      · rw [if_pos (last.mpr final), final]
        rfl
      · rw [if_neg fun claim => final (last.mp claim)]
        exact ih fuel _ _ best tail order final (by simpa using enough) some_units
    have improves := improves_iff (a := a) (h := h) some_units e.len
    simp only [bestFitPage, size, improves, pageCandidates, bestCandidate, select]
    by_cases taken : Fits a units align e ∧ best.all (fun c => e.len < c.block.len) = true
    · have here : (units : Int) + deltaAt a e.start align ≤ e.len ∧ _ := taken
      rw [if_pos here, if_pos taken]
      by_cases exact : FitsExactly a units align e
      · have same : (e.len : Int) = units + deltaAt a e.start align := exact
        rw [if_pos same, if_pos exact]
        rfl
      · have other : ¬ (e.len : Int) = units + deltaAt a e.start align := exact
        rw [if_neg other, if_neg exact]
        exact onward (some ⟨p, prev, e⟩) (by rintro c ⟨⟩; exact sep.2.1)
    · have here : ¬ ((units : Int) + deltaAt a e.start align ≤ e.len ∧ _) := taken
      rw [if_neg here, if_neg taken]
      exact onward best some_units

/-- The pages on a list, each with a free list that can be walked. -/
def Walkable (a : Arch) (h : Heap) (p : Nat) : Prop :=
  ∃ blocks, freeList a h p = blocks ∧ blocks ≠ [] ∧ blocks.length ≤ a.pageUnits ∧
    FreeSeg a h.mem (h.page p).free blocks (a.pageEnd p) ∧
    Spaced 0 (a.pageStart p) blocks (a.pageEnd p)

theorem mem_pageCandidates {c : Candidate} {prev : Option Nat} (l : List Extent) :
    c ∈ pageCandidates p prev l ↔
      c.page = p ∧ ∃ before after, l = before ++ c.block :: after ∧ c.prev = (lastStart before).or prev := by
  induction l generalizing prev with
  | nil => simp [pageCandidates]
  | cons e rest ih =>
    rw [pageCandidates, List.mem_cons, ih]
    constructor
    · rintro (rfl | ⟨here, before, after, rfl, front⟩)
      · exact ⟨rfl, [], rest, rfl, rfl⟩
      · refine ⟨here, e :: before, after, rfl, ?_⟩
        rw [front]
        rcases List.eq_nil_or_concat' before with rfl | ⟨init, f, rfl⟩
        · rfl
        · rw [← List.cons_append, lastStart_concat, lastStart_concat]
          rfl
    · rintro ⟨here, before, after, split, front⟩
      cases before with
      | nil =>
        obtain ⟨rfl, rfl⟩ : e = c.block ∧ rest = after := by simpa using split
        left
        cases c
        cases here
        cases front
        rfl
      | cons f before =>
        obtain ⟨rfl, rfl⟩ : e = f ∧ rest = before ++ c.block :: after := by simpa using split
        refine .inr ⟨here, before, after, rfl, ?_⟩
        rw [front]
        rcases List.eq_nil_or_concat' before with rfl | ⟨init, g, rfl⟩
        · rfl
        · rw [← List.cons_append, lastStart_concat, lastStart_concat]
          rfl

theorem mem_candidates {c : Candidate} {pages : List Nat} :
    c ∈ candidates a h pages ↔ c.page ∈ pages ∧
      ∃ before after, freeList a h c.page = before ++ c.block :: after ∧ c.prev = lastStart before := by
  simp only [candidates, List.mem_flatMap, mem_pageCandidates, Option.or_none]
  constructor
  · rintro ⟨sp, member, rfl, place⟩
    exact ⟨member, place⟩
  · rintro ⟨member, place⟩
    exact ⟨c.page, member, rfl, place⟩

theorem exists_candidate {e : Extent} {pages : List Nat} :
    (∃ c ∈ candidates a h pages, c.block = e) ↔ ∃ sp ∈ pages, e ∈ freeList a h sp := by
  constructor
  · rintro ⟨c, member, rfl⟩
    obtain ⟨listed, before, after, split, _⟩ := mem_candidates.mp member
    exact ⟨c.page, listed, by simp [split]⟩
  · rintro ⟨sp, listed, member⟩
    obtain ⟨before, after, split⟩ := List.append_of_mem member
    exact ⟨⟨sp, lastStart before, e⟩, mem_candidates.mpr ⟨listed, before, after, split, rfl⟩, rfl⟩

/-- The search over a list of pages is the scan over all their blocks. -/
theorem bestFitPages_eq (pages : List Nat) (best : Option Candidate) (walk : ∀ sp ∈ pages, Walkable a h sp)
    (some_units : ∀ c, best = some c → 0 < c.block.len) :
    bestFitPages a h units align pages (bestSlobOf a h best) =
      .ok (bestSlobOf a h (bestCandidate a units align (candidates a h pages) best).1) := by
  induction pages generalizing best with
  | nil => rfl
  | cons sp rest ih =>
    obtain ⟨blocks, list, some', enough, seg, order⟩ := walk sp (by simp)
    have page := bestFitPage_eq units align blocks a.pageUnits _ none best seg order some' enough some_units
    have split : candidates a h (sp :: rest) = pageCandidates sp none blocks ++ candidates a h rest := by
      simp [candidates, list]
    have scan : bestCandidate a units align (candidates a h (sp :: rest)) best =
        if (bestCandidate a units align (pageCandidates sp none blocks) best).2 then
          bestCandidate a units align (pageCandidates sp none blocks) best
        else bestCandidate a units align (candidates a h rest)
          (bestCandidate a units align (pageCandidates sp none blocks) best).1 := by
      rw [split]
      exact select_append
    rw [scan]
    simp only [bestFitPages, page]
    cases stopped : (bestCandidate a units align (pageCandidates sp none blocks) best).2 with
    | true => rfl
    | false =>
      simp only [Bool.false_eq_true, if_false]
      refine ih _ (fun q member => walk q (by simp [member])) fun c kept => ?_
      rcases select_source kept with earlier | ⟨member, _⟩
      · exact some_units c earlier
      · obtain ⟨_, before, after, place, _⟩ := (mem_pageCandidates blocks).mp member
        exact (order.bounds (by simp [place])).2.1

theorem bestFitPages_spec (pages : List Nat) (walk : ∀ sp ∈ pages, Walkable a h sp) :
    ∃ bs, bestFitPages a h units align pages .none = .ok bs ∧
      (bs.slob.isSome = true ↔ ∃ sp ∈ pages, ∃ e ∈ freeList a h sp, Fits a units align e) := by
  refine ⟨_, bestFitPages_eq pages none walk (by simp), ?_⟩
  rw [bestSlobOf_slob_isSome, bestCandidate, select_isSome]
  constructor
  · rintro ⟨c, member, fits⟩
    obtain ⟨sp, listed, here⟩ := exists_candidate.mp ⟨c, member, rfl⟩
    exact ⟨sp, listed, c.block, here, fits⟩
  · rintro ⟨sp, listed, e, here, fits⟩
    obtain ⟨c, member, rfl⟩ := exists_candidate.mpr ⟨sp, listed, here⟩
    exact ⟨c, member, fits⟩

end Cs544.Slob
