import Mathlib.Algebra.BigOperators.Group.List.Basic
import Cs544.Slob.Search

/-! `get_fragmentation`.

Three nested loops go over the lists, the pages of a list and the free blocks of a page.
What the loop over the blocks finds on a page is added to the totals behind the loop
over the pages, once for each list. So of every list only the last page is counted, and
a list without pages counts the last page seen before it once more.
-/

set_option autoImplicit false

namespace Cs544.Slob

open Cs544.Library

structure Fragmentation where
  pageTotal : Int
  pageFree : Int
  freeTotal : Int
  freeMax : Int
  pages : Int
  deriving DecidableEq, Repr

def Fragmentation.initial : Fragmentation := ⟨0, 0, 0, 0, 0⟩

def slobListsNStuff : List SizeClass :=
  [.reallydamnsmall, .femto, .pico, .nano, .micro, .small, .smedium, .medium, .large, .mega, .giga]

section
variable (a : Arch)

def measureBlocks (mem : Memory) : Nat → Nat → Int → Int → Except Fault (Int × Int)
  | 0, _, _, _ => .error .diverges
  | fuel + 1, cur, pageFree, pageTotal =>
      let pageFree := if slobUnits mem cur > pageFree then slobUnits mem cur else pageFree
      let pageTotal := pageTotal + slobUnits mem cur
      if slobLast a mem cur then .ok (pageFree, pageTotal)
      else measureBlocks mem fuel (slobNext a mem cur) pageFree pageTotal

def measurePages (h : Heap) : List Nat → Fragmentation → Except Fault Fragmentation
  | [], f => .ok f
  | sp :: rest, f =>
      match measureBlocks a h.mem a.pageUnits (h.page sp).free 0 0 with
      | .error fault => .error fault
      | .ok (pageFree, pageTotal) => measurePages h rest { f with pageFree, pageTotal }

def measureLists (h : Heap) : List SizeClass → Fragmentation → Except Fault Fragmentation
  | [], f => .ok f
  | c :: rest, f =>
      match measurePages a h (h.lists c) f with
      | .error fault => .error fault
      | .ok f => measureLists h rest { f with
          pages := f.pages + 1, freeMax := f.freeMax + f.pageFree, freeTotal := f.freeTotal + f.pageTotal }

/-- `get_fragmentation`. The products stay far below the range of a `long`. -/
def getFragmentation (h : Heap) (which : Int) : Except Fault Int :=
  match measureLists a h slobListsNStuff .initial with
  | .error fault => .error fault
  | .ok f => .ok ((if which ≠ 0 then f.freeTotal else f.freeMax) * (a.indexBits / 8 : Nat) / f.pages)

end

/-! ## What it is to measure -/

def largest : List Extent → Nat
  | [] => 0
  | e :: rest => max e.len (largest rest)

def pageTotal (a : Arch) (h : Heap) (sp : Nat) : Int := total (freeList a h sp)

def pageLargest (a : Arch) (h : Heap) (sp : Nat) : Int := largest (freeList a h sp)

def sumOver (measure : Nat → Int) (pages : List Nat) : Int := (pages.map measure).sum

def listedPages (h : Heap) (classes : List SizeClass) : List Nat := classes.flatMap h.lists

/-- The totals are those of all pages on all lists. -/
structure MeasuresHeap (a : Arch) (h : Heap) (f : Fragmentation) : Prop where
  total : f.freeTotal = sumOver (pageTotal a h) (listedPages h slobListsNStuff)
  largest : f.freeMax = sumOver (pageLargest a h) (listedPages h slobListsNStuff)
  pages : f.pages = (listedPages h slobListsNStuff).length

/-- The pages that are not the last of their list. -/
def overlookedPages (h : Heap) (classes : List SizeClass) : List Nat := classes.flatMap fun c => (h.lists c).dropLast

def emptyLists (h : Heap) (classes : List SizeClass) : List SizeClass := classes.filter fun c => (h.lists c).isEmpty

/-- The last page seen, once for every list without pages; `seen` is the last page of the
lists before. -/
def repeatedPages (h : Heap) : List SizeClass → Option Nat → List Nat
  | [], _ => []
  | c :: rest, seen =>
      match (h.lists c).getLast? with
      | some sp => repeatedPages h rest (some sp)
      | none => seen.toList ++ repeatedPages h rest seen

/-- What the overlooked pages would have added, the repeated ones add. -/
structure Compensated (a : Arch) (h : Heap) : Prop where
  number : (overlookedPages h slobListsNStuff).length = (emptyLists h slobListsNStuff).length
  total : sumOver (pageTotal a h) (overlookedPages h slobListsNStuff) =
    sumOver (pageTotal a h) (repeatedPages h slobListsNStuff none)
  largest : sumOver (pageLargest a h) (overlookedPages h slobListsNStuff) =
    sumOver (pageLargest a h) (repeatedPages h slobListsNStuff none)

variable {a : Arch} {h : Heap} {p : Nat} {pages : List Nat} {classes : List SizeClass} {f : Fragmentation}

@[simp] theorem sumOver_nil (measure : Nat → Int) : sumOver measure [] = 0 := rfl

@[simp] theorem sumOver_append (measure : Nat → Int) (l m : List Nat) :
    sumOver measure (l ++ m) = sumOver measure l + sumOver measure m := by
  simp [sumOver]

/-! ## The loops -/

theorem measureBlocks_eq (m : List Extent) (fuel cur : Nat) (free total' : Int)
    (seg : FreeSeg a h.mem cur m (a.pageEnd p)) (sep : Spaced 0 (a.pageStart p) m (a.pageEnd p))
    (some' : m ≠ []) (enough : m.length ≤ fuel) :
    measureBlocks a h.mem fuel cur free total' = .ok (max free (largest m), total' + total m) := by
  induction m generalizing fuel cur free total' with
  | nil => exact absurd rfl some'
  | cons e rest ih =>
    have last := slobLast_iff seg sep
    obtain ⟨rfl, size, tail⟩ := seg.cons_inv
    obtain ⟨fuel, rfl⟩ : ∃ k, fuel = k + 1 := ⟨fuel - 1, by simp only [List.length_cons] at enough; omega⟩
    have larger : (if (e.len : Int) > free then (e.len : Int) else free) = max free e.len := by omega
    simp only [measureBlocks, size, larger, largest, total_cons]
    by_cases final : rest = []
    · rw [if_pos (last.mpr final), final]
      simp [largest]
    · rw [if_neg fun claim => final (last.mp claim),
        ih fuel _ _ _ tail (sep.2.2.2.weaken (by have := sep.1; simp only [Extent.stop]; omega)) final
          (by simpa using enough)]
      simp only [Except.ok.injEq, Prod.mk.injEq]
      constructor <;> omega

/-- The measure of the last page seen. -/
def lastSeen (measure : Nat → Int) (seen : Option Nat) : Int := sumOver measure seen.toList

/-- The page each list adds: its last one, or the last one seen. -/
def countedPages (h : Heap) : List SizeClass → Option Nat → List Nat
  | [], _ => []
  | c :: rest, seen =>
      ((h.lists c).getLast?.or seen).toList ++ countedPages h rest ((h.lists c).getLast?.or seen)

theorem measurePages_eq (pages : List Nat) (seen : Option Nat) (walk : ∀ sp ∈ pages, Walkable a h sp)
    (units : f.pageTotal = lastSeen (pageTotal a h) seen) (free : f.pageFree = lastSeen (pageLargest a h) seen) :
    measurePages a h pages f = .ok { f with
      pageTotal := lastSeen (pageTotal a h) (pages.getLast?.or seen)
      pageFree := lastSeen (pageLargest a h) (pages.getLast?.or seen) } := by
  induction pages generalizing f seen with
  | nil =>
    rw [measurePages, List.getLast?_nil, Option.none_or, ← units, ← free]
  | cons sp rest ih =>
    obtain ⟨blocks, list, some', enough, seg, order⟩ := walk sp (by simp)
    have page := measureBlocks_eq blocks a.pageUnits _ 0 0 seg order some' enough
    have here := ih (f := { f with pageFree := max 0 (largest blocks), pageTotal := 0 + total blocks }) (some sp)
      (fun q member => walk q (by simp [member]))
      (by simp [lastSeen, sumOver, pageTotal, list]) (by simp [lastSeen, sumOver, pageLargest, list])
    have last : (sp :: rest).getLast?.or seen = rest.getLast?.or (some sp) := by
      cases rest with
      | nil => rfl
      | cons q rest => simp [List.getLast?_cons]
    simp only [measurePages, page, here, last]

theorem measureLists_eq (classes : List SizeClass) (seen : Option Nat)
    (walk : ∀ c ∈ classes, ∀ sp ∈ h.lists c, Walkable a h sp)
    (units : f.pageTotal = lastSeen (pageTotal a h) seen) (free : f.pageFree = lastSeen (pageLargest a h) seen) :
    ∃ f', measureLists a h classes f = .ok f' ∧
      f'.freeTotal = f.freeTotal + sumOver (pageTotal a h) (countedPages h classes seen) ∧
      f'.freeMax = f.freeMax + sumOver (pageLargest a h) (countedPages h classes seen) ∧
      f'.pages = f.pages + classes.length := by
  induction classes generalizing f seen with
  | nil => exact ⟨f, rfl, by simp [countedPages], by simp [countedPages], by simp⟩
  | cons c rest ih =>
    have list := measurePages_eq (h.lists c) seen (walk c (by simp)) units free
    simp only [measureLists, list]
    obtain ⟨f', result, total', largest', number⟩ := ih (f := ⟨_, _, _, _, _⟩) ((h.lists c).getLast?.or seen)
      (fun d member => walk d (by simp [member])) rfl rfl
    dsimp only at total' largest' number
    refine ⟨f', result, ?_, ?_, ?_⟩
    · rw [total', countedPages, sumOver_append, lastSeen]
      omega
    · rw [largest', countedPages, sumOver_append, lastSeen]
      omega
    · rw [number, List.length_cons]
      omega

/-- What `get_fragmentation` returns divides by the number of lists, whatever the number
of pages on them. -/
theorem getFragmentation_eq (walk : ∀ c, ∀ sp ∈ h.lists c, Walkable a h sp) (which : Int) :
    getFragmentation a h which =
      .ok (sumOver (if which ≠ 0 then pageTotal a h else pageLargest a h) (countedPages h slobListsNStuff none) *
        (a.indexBits / 8 : Nat) / slobListsNStuff.length) := by
  obtain ⟨f, result, units, free, number⟩ :=
    measureLists_eq (f := .initial) slobListsNStuff none (fun c _ => walk c) rfl rfl
  simp only [Fragmentation.initial, Int.zero_add] at units free number
  rw [getFragmentation, result]
  dsimp only
  rw [units, free, number]
  split_ifs <;> rfl

/-! ## What the totals leave out and what they repeat -/

theorem counted_add_overlooked (measure : Nat → Int) (classes : List SizeClass) (seen : Option Nat) :
    sumOver measure (countedPages h classes seen) + sumOver measure (overlookedPages h classes) =
      sumOver measure (listedPages h classes) + sumOver measure (repeatedPages h classes seen) := by
  induction classes generalizing seen with
  | nil => rfl
  | cons c rest ih =>
    simp only [countedPages, overlookedPages, listedPages, List.flatMap_cons, repeatedPages, sumOver_append] at ih ⊢
    rcases List.eq_nil_or_concat' (h.lists c) with empty | ⟨init, sp, split⟩
    · have := ih seen
      simp only [empty, List.getLast?_nil, Option.none_or, List.dropLast_nil, sumOver_nil, sumOver_append]
      omega
    · have := ih (some sp)
      simp only [split, List.getLast?_concat, Option.some_or, List.dropLast_concat, Option.toList_some,
        sumOver_append]
      omega

theorem listed_add_empty (classes : List SizeClass) :
    (listedPages h classes).length + (emptyLists h classes).length =
      (overlookedPages h classes).length + classes.length := by
  induction classes with
  | nil => rfl
  | cons c rest ih =>
    simp only [listedPages, emptyLists, overlookedPages, List.flatMap_cons, List.length_append,
      List.length_cons, List.filter_cons] at ih ⊢
    rcases List.eq_nil_or_concat' (h.lists c) with empty | ⟨init, sp, split⟩
    · simp only [empty, List.isEmpty_nil, if_true, List.length_cons, List.length_nil, List.dropLast_nil]
      omega
    · have full : (init ++ [sp]).isEmpty = false := by simp
      simp only [split, full, Bool.false_eq_true, if_false, List.length_append, List.length_cons, List.length_nil,
        List.dropLast_concat]
      omega

/-- `get_fragmentation` measures the whole heap exactly when the pages it overlooks and
the pages it repeats make up for each other. -/
theorem get_fragmentation_measures_iff (a : Arch) (h : Heap) (walk : ∀ c, ∀ sp ∈ h.lists c, Walkable a h sp) :
    ∃ f, measureLists a h slobListsNStuff .initial = .ok f ∧ (MeasuresHeap a h f ↔ Compensated a h) := by
  obtain ⟨f, result, units, free, number⟩ :=
    measureLists_eq (f := .initial) slobListsNStuff none (fun c _ => walk c) rfl rfl
  refine ⟨f, result, ?_⟩
  have totals := counted_add_overlooked (h := h) (pageTotal a h) slobListsNStuff none
  have maxima := counted_add_overlooked (h := h) (pageLargest a h) slobListsNStuff none
  have lengths := listed_add_empty (h := h) slobListsNStuff
  simp only [Fragmentation.initial] at units free number
  constructor
  · rintro ⟨total', largest', pages'⟩
    constructor <;> omega
  · rintro ⟨number', total', largest'⟩
    constructor <;> omega

/-- One page on every list, all of it free, from page 1 on. -/
def onePageEach : Heap where
  mem x := if x % 2048 ≤ 1 then 2048 else 0
  page p := ⟨2048, 2048 * p, true, true⟩
  lists c := [slobListsNStuff.idxOf c + 1]

theorem onePageEach_walkable (p : Nat) : Walkable x86 onePageEach p := by
  have whole : x86.pageUnits = 2048 := rfl
  have start : x86.pageStart p = 2048 * p := Nat.mul_comm p 2048
  have stop : x86.pageEnd p = 2048 * p + 2048 := by rw [← x86.pageStart_add, start, whole]
  have first : onePageEach.mem (2048 * p) = 2048 := if_pos (by omega)
  have second : onePageEach.mem (2048 * p + 1) = 2048 := if_pos (by omega)
  have next : slobNext x86 onePageEach.mem (2048 * p) = x86.pageEnd p := by
    simp only [slobNext, Arch.pageBase, first, second, whole, stop]
    rw [if_neg (by decide)]
    omega
  have seg : FreeSeg x86 onePageEach.mem (onePageEach.page p).free [⟨2048 * p, 2048⟩] (x86.pageEnd p) := by
    refine ⟨rfl, x86.pageEnd p, ⟨?_, next, by simp⟩, rfl⟩
    rw [slobUnits, first]
    rfl
  have order : Spaced 0 (x86.pageStart p) [⟨2048 * p, 2048⟩] (x86.pageEnd p) := by
    refine ⟨Nat.le_of_eq start, by simp, Nat.le_of_eq stop.symm, trivial⟩
  refine ⟨_, ?_, by simp, by simp [whole], seg, order⟩
  rw [freeList, if_neg (by rw [stop]; simp [onePageEach])]
  exact freeBlocks_eq seg order (by rw [whole]; simp)

theorem get_fragmentation_measures_one_page_each :
    ∃ f, measureLists x86 onePageEach slobListsNStuff .initial = .ok f ∧ MeasuresHeap x86 onePageEach f := by
  obtain ⟨f, result, measures⟩ := get_fragmentation_measures_iff x86 onePageEach fun _ sp _ => onePageEach_walkable sp
  exact ⟨f, result, measures.mpr ⟨by decide, by decide, by decide⟩⟩

/-- The only page is on the second list, and is counted again for each of the nine lists
behind it. -/
theorem get_fragmentation_repeats :
    ¬ ∀ (a : Arch) (h : Heap), (∀ c, ∀ sp ∈ h.lists c, Walkable a h sp) →
      ∀ f, measureLists a h slobListsNStuff .initial = .ok f → MeasuresHeap a h f := by
  intro measures
  have walk : ∀ c, ∀ sp ∈ twoBlocks.lists c, Walkable x86 twoBlocks sp := by
    intro c sp member
    refine twoBlocks_walkable sp ?_
    by_cases same : c = .femto
    · simpa [twoBlocks, same] using member
    · simp [twoBlocks, same] at member
  have found : measureLists x86 twoBlocks slobListsNStuff .initial = .ok ⟨7, 4, 70, 40, 11⟩ := by decide +kernel
  have pages := (measures x86 twoBlocks walk _ found).pages
  exact absurd pages (by decide)

end Cs544.Slob
