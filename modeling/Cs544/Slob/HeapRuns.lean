import Mathlib.Data.List.Nodup
import Cs544.Slob.HeapInvariant

/-! Histories of the whole SLOB heap.

A history starts before the first page is obtained and is any sequence of
`slob_alloc` and `slob_free` calls. Memory the allocator does not own (live
blocks, pages it never obtained or has handed back) may change at any time.
-/

set_option autoImplicit false

namespace Cs544.Slob

open Cs544.Library

structure HeapState where
  heap : Heap
  live : List LiveBlock

/-- Before the first call: no page obtained, every list empty. -/
def HeapState.Initial (s : HeapState) : Prop :=
  (∀ p, (s.heap.page p).slab = false) ∧ (∀ c, s.heap.lists c = []) ∧ s.live = []

inductive HeapCall (a : Arch) where
  | alloc (size : Nat) (zero : Bool) (align : Int) (newPage : Option a.Frame)
  | free (block : LiveBlock)
  | write (unit : Nat) (value : Int)

/-- When a call may be made. A page of the page allocator is not in use. -/
def HeapCall.Allowed {a : Arch} (s : HeapState) : HeapCall a → Prop
  | .alloc size _ align newPage =>
      0 < size ∧ size ≤ a.pageSize ∧ (align = 0 ∨ ∃ k : Nat, align = 2 ^ k ∧ 2 ^ k ≤ a.pageSize) ∧
        ∀ frame ∈ newPage, (s.heap.page frame.number).slab = false
  | .free b => b ∈ s.live
  | .write unit _ =>
      (∃ b ∈ s.live, (b.extent a).Contains unit) ∨ (s.heap.page (a.pageOf unit)).slab = false

def heapCall {a : Arch} (s : HeapState) : HeapCall a → Except Fault HeapState
  | .alloc size zero align newPage =>
      match slobAlloc s.heap size zero align newPage with
      | .error fault => .error fault
      | .ok ⟨none, heap, _⟩ => .ok { s with heap }
      | .ok ⟨some addr, heap, _⟩ => .ok ⟨heap, ⟨addr, size⟩ :: s.live⟩
  | .free b =>
      match slobFree a s.heap b.addr b.size with
      | .error fault => .error fault
      | .ok heap => .ok ⟨heap, s.live.erase b⟩
  | .write unit value =>
      .ok { s with heap := { s.heap with mem := Function.update s.heap.mem unit value } }

def HeapStep (a : Arch) (s : HeapState) (call : HeapCall a) (t : HeapState) : Prop :=
  call.Allowed s ∧ heapCall s call = .ok t

variable {a : Arch} {s t : HeapState} {h : Heap} {p size : Nat} {live : List LiveBlock} {calls : List (HeapCall a)}

theorem HeapState.Initial.inv (init : s.Initial) : HeapInv a s.heap s.live := by
  obtain ⟨slab, lists, live⟩ := init
  refine ⟨fun p used => ?_, fun b member => ?_, fun c p => ?_, fun c => ?_⟩
  · rw [slab p] at used
    cases used
  · rw [live] at member
    cases member
  · simp [lists, slab]
  · simp [lists]

theorem initial_empty : HeapState.Initial ⟨Heap.empty, []⟩ := ⟨fun _ => rfl, fun _ => rfl, rfl⟩

namespace HeapInv

theorem alloc_none (inv : HeapInv a h live) (size : Nat) (zero : Bool) (align : Int) :
    slobAlloc (a := a) h size zero align none = .ok ⟨none, h, 1⟩ := by
  obtain ⟨n, search, _⟩ := inv.bestFit_eq (slobList size) size align none none none
  simp only [slobAlloc, search]

theorem write (inv : HeapInv a h live) {unit : Nat} {value : Int} (foreign : Foreign a h live unit) :
    HeapInv a { h with mem := Function.update h.mem unit value } live := by
  refine inv.store fun x owned => Function.update_of_ne (fun same : x = unit => ?_) _ _
  exact owned (same ▸ foreign)

end HeapInv

/-- Every call that may be made returns and keeps the invariant. -/
theorem heapCall_preserves {call : HeapCall a} (inv : HeapInv a s.heap s.live) (allowed : call.Allowed s) :
    ∃ t, heapCall s call = .ok t ∧ HeapInv a t.heap t.live := by
  cases call with
  | alloc size zero align newPage =>
    obtain ⟨positive, small, aligned, unused⟩ := allowed
    cases newPage with
    | none => exact ⟨s, by simp only [heapCall, inv.alloc_none], inv⟩
    | some frame =>
      obtain ⟨addr, heap, result, after, _⟩ :=
        inv.alloc_some frame zero (unused frame rfl) positive small aligned
      exact ⟨⟨heap, ⟨addr, size⟩ :: s.live⟩, by simp only [heapCall, result], after⟩
  | free b =>
    obtain ⟨heap, result, after, _⟩ := (inv.perm (List.perm_cons_erase allowed)).free
    exact ⟨⟨heap, s.live.erase b⟩, by simp only [heapCall, result], after⟩
  | write unit value => exact ⟨_, rfl, inv.write allowed⟩

theorem heapRun_invariant (run : Run (HeapStep a) s calls t) (start : HeapInv a s.heap s.live) :
    HeapInv a t.heap t.live := by
  refine run.invariant (fun s => HeapInv a s.heap s.live) ?_ start
  rintro s call t inv ⟨allowed, result⟩
  obtain ⟨t', result', after⟩ := heapCall_preserves inv allowed
  rw [result] at result'
  cases result'
  exact after

/-! ## What the invariant says about the lists -/

def FreeUnit (a : Arch) (live : List LiveBlock) (p : Nat) : Prop :=
  ∃ x, a.pageStart p ≤ x ∧ x < a.pageEnd p ∧ ¬ Covers (extents a live) x

def HoldsLive (a : Arch) (live : List LiveBlock) (p : Nat) : Prop := ∃ b ∈ live, a.pageOf b.addr = p

namespace HeapInv

theorem covers_liveOn (inv : HeapInv a h live) {x : Nat} :
    Covers (extents a (liveOn a (a.pageOf x) live)) x ↔ Covers (extents a live) x := by
  simp only [Covers, extents, List.mem_map, exists_exists_and_eq_and, mem_liveOn]
  constructor
  · rintro ⟨b, ⟨member, _⟩, inside⟩
    exact ⟨b, member, inside⟩
  · rintro ⟨b, member, inside⟩
    exact ⟨b, ⟨member, (inv.pageOf_unit member inside).symm⟩, inside⟩

theorem slobFree_iff (inv : HeapInv a h live) (slab : (h.page p).slab = true) :
    (h.page p).slobFree = true ↔ FreeUnit a live p := by
  obtain ⟨blocks, page⟩ := (inv.pages p slab).page
  rw [page.marked]
  constructor
  · intro positive
    obtain ⟨e, rest, rfl⟩ := List.exists_cons_of_ne_nil (page.blocks_ne_nil positive)
    obtain ⟨low, size, high⟩ := Spaced.bounds page.separated (List.mem_cons_self (a := e) (l := rest))
    simp only [Extent.stop] at high
    have here : a.pageOf e.start = p := Arch.pageOf_eq low (by omega)
    refine ⟨e.start, low, by omega, fun covered => ?_⟩
    rw [← inv.covers_liveOn, here] at covered
    refine (page.tiles e.start low (by omega)).mp ⟨e, by simp, ?_⟩ covered
    simp only [Extent.Contains]
    omega
  · rintro ⟨x, low, high, uncovered⟩
    rw [← inv.covers_liveOn, Arch.pageOf_eq low high] at uncovered
    have covered := (page.tiles x low high).mpr uncovered
    rw [page.units]
    by_contra none'
    have empty : blocks = [] := page.blocks_eq_nil (by rw [page.units]; omega)
    subst empty
    simp at covered

end HeapInv

/-! ## Safety -/

/-- Safety of the whole heap, after any history. Live blocks stay inside one page
and apart; the lists hold exactly the pages with a free unit and a live block, each
once, on the list of the size class of all its live blocks. From there every
`slob_alloc` returns: NULL with the heap unchanged when there is no new page, else
an aligned block inside one page and apart from every live block. Every
`slob_free` of a live block returns as well. -/
theorem slob_heap_safety (a : Arch) (start s : HeapState) (calls : List (HeapCall a))
    (init : start.Initial) (run : Run (HeapStep a) start calls s) :
    (∀ b ∈ s.live, ∃ p, a.pageStart p ≤ b.addr ∧ b.addr + a.slobUnitsOf b.size ≤ a.pageEnd p) ∧
    (s.live.Pairwise fun b c => (b.extent a).Disjoint (c.extent a)) ∧
    (∀ p, FreeUnit a s.live p ∧ HoldsLive a s.live p →
      ∃ c, (∀ d, (s.heap.lists d).count p = if d = c then 1 else 0) ∧
        ∀ b ∈ s.live, a.pageOf b.addr = p → slobList b.size = c) ∧
    (∀ p, ¬ (FreeUnit a s.live p ∧ HoldsLive a s.live p) → ∀ c, p ∉ s.heap.lists c) ∧
    (∀ (size : Nat) (zero : Bool) (align : Int),
      slobAlloc s.heap size zero align (none : Option a.Frame) = .ok ⟨none, s.heap, 1⟩) ∧
    (∀ (size : Nat) (zero : Bool) (align : Int) (newPage : a.Frame),
      (HeapCall.alloc size zero align (some newPage)).Allowed s →
        ∃ p addr heap n, slobAlloc s.heap size zero align (some newPage) = .ok ⟨some addr, heap, n⟩ ∧
          a.pageStart p ≤ addr ∧ addr + a.slobUnitsOf size ≤ a.pageEnd p ∧
          (align ≠ 0 → align ∣ (a.slobUnit * addr : Nat)) ∧
          ∀ b ∈ s.live, (LiveBlock.extent a ⟨addr, size⟩).Disjoint (b.extent a)) ∧
    ∀ b ∈ s.live, ∃ heap, slobFree a s.heap b.addr b.size = .ok heap := by
  have inv : HeapInv a s.heap s.live := heapRun_invariant run init.inv
  refine ⟨fun b member => ?_, inv.pairwise, fun p => ?_, fun p unfit c member => ?_, inv.alloc_none, ?_, ?_⟩
  · obtain ⟨low, _, high⟩ := inv.block_bounds member
    exact ⟨_, low, high⟩
  · rintro ⟨free, b, member, rfl⟩
    have slab := inv.owned b member
    have use := inv.pages _ slab
    have classes (c : LiveBlock) (other : c ∈ s.live) (here : a.pageOf c.addr = a.pageOf b.addr) :
        slobList c.size = slobList b.size :=
      use.sameClass c (mem_liveOn.mpr ⟨other, here⟩) b (mem_liveOn.mpr ⟨member, rfl⟩)
    refine ⟨slobList b.size, fun d => ?_, classes⟩
    have listed := inv.listed d (a.pageOf b.addr)
    simp only [slab, (inv.slobFree_iff slab).mpr free, true_and] at listed
    split
    next same =>
      exact List.count_eq_one_of_mem (inv.nodup d) (listed.mpr ⟨b, mem_liveOn.mpr ⟨member, rfl⟩, same.symm⟩)
    next other =>
      refine List.count_eq_zero.mpr fun found => other ?_
      obtain ⟨c, here, rfl⟩ := listed.mp found
      exact classes c (mem_liveOn.mp here).1 (mem_liveOn.mp here).2
  · obtain ⟨slab, marked, b, here, _⟩ := (inv.listed c p).mp member
    exact unfit ⟨(inv.slobFree_iff slab).mp marked, b, mem_liveOn.mp here⟩
  · rintro size zero align newPage ⟨positive, small, aligned, unused⟩
    obtain ⟨addr, heap, result, after, _, low, high, divides, _⟩ :=
      inv.alloc_some newPage zero (unused newPage rfl) positive small aligned
    refine ⟨newPage.number, addr, heap, 1, result, low, high, divides, fun b member => ?_⟩
    exact (List.pairwise_cons.mp after.pairwise).1 b member
  · intro b member
    obtain ⟨heap, result, _⟩ := (inv.perm (List.perm_cons_erase member)).free
    exact ⟨heap, result⟩

def secondPage : x86.Frame := ⟨2, by decide, by decide⟩

/-- Blocks of 100 and of 3000 bytes on two pages; the first is freed, which hands its
page back. -/
theorem slob_heap_safety_after_free :
    ∃ (first : Nat) (s : HeapState), Run (HeapStep x86) ⟨Heap.empty, []⟩
        [.alloc 100 false 8 (some Arch.x86Frame), .alloc 3000 true 0 (some secondPage),
          .free ⟨first, 100⟩] s ∧
      s.live.map LiveBlock.size = [3000] ∧
      slobAlloc (a := x86) s.heap 40 false 0 none = .ok ⟨none, s.heap, 1⟩ ∧
      ∀ b ∈ s.live, ∃ heap, slobFree x86 s.heap b.addr b.size = .ok heap := by
  have allowed : HeapCall.Allowed ⟨Heap.empty, []⟩ (.alloc 100 false 8 (some Arch.x86Frame)) :=
    ⟨by decide, by decide, .inr ⟨3, by decide, by decide⟩, fun _ _ => rfl⟩
  obtain ⟨first, heap, result, inv, _, _, _, _, _, untouched⟩ :=
    (initial_empty.inv (a := x86)).alloc_some Arch.x86Frame false
      (allowed.2.2.2 _ rfl) allowed.1 allowed.2.1 allowed.2.2.1
  have unused : (heap.page secondPage.number).slab = false := by
    rw [untouched _ (by decide)]
    rfl
  have allowed' : HeapCall.Allowed ⟨heap, [⟨first, 100⟩]⟩ (.alloc 3000 true 0 (some secondPage)) := by
    refine ⟨by decide, by decide, .inl rfl, fun frame same => ?_⟩
    cases same
    exact unused
  obtain ⟨second, heap', result', inv', _⟩ :=
    inv.alloc_some secondPage true unused allowed'.1 allowed'.2.1 allowed'.2.2.1
  obtain ⟨heap'', released, _⟩ := (inv'.perm (List.Perm.swap ..)).free
  have taken : heapCall ⟨Heap.empty, []⟩ (.alloc 100 false 8 (some Arch.x86Frame)) = .ok ⟨heap, [⟨first, 100⟩]⟩ := by
    simp only [heapCall, result]
  have taken' : heapCall ⟨heap, [⟨first, 100⟩]⟩ (.alloc 3000 true 0 (some secondPage)) =
      .ok ⟨heap', [⟨second, 3000⟩, ⟨first, 100⟩]⟩ := by
    simp only [heapCall, result']
  have freed : HeapStep x86 ⟨heap', [⟨second, 3000⟩, ⟨first, 100⟩]⟩ (.free ⟨first, 100⟩)
      ⟨heap'', [⟨second, 3000⟩]⟩ :=
    ⟨by simp [HeapCall.Allowed], by simp [heapCall, released]⟩
  have run := Run.cons ⟨allowed, taken⟩ (.cons ⟨allowed', taken'⟩ (.cons freed (.nil _)))
  have safe := slob_heap_safety x86 _ _ _ initial_empty run
  exact ⟨first, _, run, rfl, safe.2.2.2.2.1 40 false 0, safe.2.2.2.2.2.2⟩

/-! ## Reuse -/

/-- Some page on the list of the size's class has a block with `avail >= units + delta`. -/
def FittingBlock (a : Arch) (h : Heap) (size : Nat) (align : Int) : Prop :=
  ∃ sp ∈ h.lists (slobList size), ∃ e ∈ freeList a h sp, Fits a (a.slobUnitsOf size) align e

/-- If a block fits, `slob_alloc` serves the request from a page of the list and
does not ask for a new one. -/
def ReusesBeforeGrowing (h : Heap) (size : Nat) (zero : Bool) (align : Int) (newPage : Option a.Frame) :
    Prop :=
  FittingBlock a h size align →
    ∃ r, slobAlloc h size zero align newPage = .ok r ∧ r.newPages = 0 ∧
      ∃ addr, r.block = some addr ∧ a.pageOf addr ∈ h.lists (slobList size)

/-- `best_fit` leaves `best_page` NULL in its caller, which then skips the loop. -/
theorem slobAlloc_newPages {zero : Bool} {align : Int} {newPage : Option a.Frame} {r : AllocResult}
    (result : slobAlloc h size zero align newPage = .ok r) : r.newPages = 1 := by
  unfold slobAlloc at result
  simp only at result
  split at result
  · cases result
  · cases newPage with
    | none =>
      cases result
      rfl
    | some frame =>
      simp only at result
      split at result
      · cases result
      · cases result
      · cases result
        rfl

/-- After any history `best_fit` reports success exactly when a block fits, and
`slob_alloc` meets its reuse rule exactly when none does: whatever the search
finds, a new page is asked for. -/
theorem slob_alloc_reuse (a : Arch) (start s : HeapState) (calls : List (HeapCall a))
    (init : start.Initial) (run : Run (HeapStep a) start calls s) (size : Nat) (zero : Bool)
    (align : Int) (newPage : Option a.Frame) :
    (bestFit a s.heap (slobList size) size align none none none = .ok 1 ↔ FittingBlock a s.heap size align) ∧
    (ReusesBeforeGrowing s.heap size zero align newPage ↔ ¬ FittingBlock a s.heap size align) := by
  have inv : HeapInv a s.heap s.live := heapRun_invariant run init.inv
  constructor
  · obtain ⟨n, search, found⟩ := inv.bestFit_eq (slobList size) size align none none none
    rw [search, Except.ok.injEq, found]
    rfl
  · constructor
    · intro reuses fits
      obtain ⟨r, result, none', _⟩ := reuses fits
      rw [slobAlloc_newPages result] at none'
      cases none'
    · exact fun unfit fits => absurd fits unfit

def afterFirst : Heap :=
  match slobAlloc (a := x86) Heap.empty 100 false 0 (some Arch.x86Frame) with
  | .ok r => r.heap
  | .error _ => Heap.empty

theorem afterFirst_run :
    Run (HeapStep x86) ⟨Heap.empty, []⟩ [.alloc 100 false 0 (some Arch.x86Frame)]
      ⟨afterFirst, [⟨2048, 100⟩]⟩ := by
  refine .cons ⟨⟨by decide, by decide, .inl rfl, fun _ _ => rfl⟩, ?_⟩ (.nil _)
  rfl

theorem afterFirst_bestFit : bestFit x86 afterFirst (slobList 100) 100 0 none none none = .ok 1 := by
  rfl

/-- After one call the page has room for the next request of that class, which breaks the
rule; no page is on the list of a larger one, which keeps it. -/
theorem slob_alloc_reuse_after_first :
    ¬ ReusesBeforeGrowing (a := x86) afterFirst 100 false 0 (some secondPage) ∧
      ReusesBeforeGrowing (a := x86) afterFirst 3000 false 0 (some secondPage) := by
  have reuse (size : Nat) := slob_alloc_reuse x86 _ _ _ initial_empty afterFirst_run size false 0 (some secondPage)
  constructor
  · exact fun reuses => (reuse 100).2.mp reuses ((reuse 100).1.mp afterFirst_bestFit)
  · refine (reuse 3000).2.mpr ?_
    rintro ⟨sp, member, _⟩
    have empty : afterFirst.lists (slobList 3000) = [] := rfl
    simp only [empty, List.not_mem_nil] at member

/-- One page holds one block of 100 bytes and nothing else; the next request of
that size finds room in it and still asks for a new page. -/
theorem slob_alloc_grows_despite_room :
    ∃ start s : HeapState, start.Initial ∧
      Run (HeapStep x86) start [.alloc 100 false 0 (some Arch.x86Frame)] s ∧
      FittingBlock x86 s.heap 100 0 ∧ ¬ ReusesBeforeGrowing (a := x86) s.heap 100 false 0 none := by
  have inv := heapRun_invariant afterFirst_run initial_empty.inv
  have fits : FittingBlock x86 afterFirst 100 0 := by
    obtain ⟨n, search, found⟩ := inv.bestFit_eq (slobList 100) 100 0 none none none
    rw [afterFirst_bestFit, Except.ok.injEq] at search
    exact found.mp search.symm
  refine ⟨_, _, initial_empty, afterFirst_run, fits, fun reuses => ?_⟩
  obtain ⟨r, result, none', _⟩ := reuses fits
  rw [slobAlloc_newPages result] at none'
  cases none'

end Cs544.Slob
