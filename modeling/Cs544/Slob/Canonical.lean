import Cs544.Slob.PageInvariant

/-! The free list of a page is a function of the blocks live on it.

The invariant keeps the free blocks sorted and never adjacent, and it says which
units they cover, so no trace of the order of the calls is left in them.
-/

set_option autoImplicit false

namespace Cs544.Slob

open Cs544.Library

/-- What the allocator knows of page `p` agrees in two heaps: `sp->free`,
`sp->units` and every block of the free list. -/
def SameFree (a : Arch) (p : Nat) (h h' : Heap) : Prop :=
  (h.page p).free = (h'.page p).free ∧ (h.page p).units = (h'.page p).units ∧
    freeList a h p = freeList a h' p

variable {a : Arch} {h h' : Heap} {p : Nat} {live live' : List LiveBlock} {blocks blocks' : List Extent}
  {s t u v : PageState}

namespace PageInv

theorem covers_iff (inv : PageInv a h p live blocks) (x : Nat) :
    Covers blocks x ↔ a.pageStart p ≤ x ∧ x < a.pageEnd p ∧ ¬ Covers (extents a live) x := by
  constructor
  · intro covered
    obtain ⟨low, high⟩ := Spaced.covers_bounds inv.separated covered
    exact ⟨low, high, (inv.tiles x low high).mp covered⟩
  · rintro ⟨low, high, unused⟩
    exact (inv.tiles x low high).mpr unused

theorem blocks_unique (inv : PageInv a h p live blocks) (inv' : PageInv a h' p live' blocks')
    (same : ∀ e, e ∈ extents a live ↔ e ∈ extents a live') : blocks = blocks' := by
  apply Separated.unique inv.separated inv'.separated
  intro x
  have used : Covers (extents a live) x ↔ Covers (extents a live') x := by simp only [Covers, same]
  rw [inv.covers_iff, inv'.covers_iff, used]

/-- `sp->free` is the first block, or the page end when there is none. -/
theorem free_eq (inv : PageInv a h p live blocks) (inv' : PageInv a h' p live' blocks) :
    (h.page p).free = (h'.page p).free := by
  have follows := inv.follows
  have follows' := inv'.follows
  cases blocks with
  | nil => exact Eq.trans follows (Eq.symm follows')
  | cons e rest => exact follows.cons_inv.1.trans follows'.cons_inv.1.symm

theorem sameFree (inv : PageInv a h p live blocks) (inv' : PageInv a h' p live' blocks')
    (same : ∀ e, e ∈ extents a live ↔ e ∈ extents a live') : SameFree a p h h' := by
  have equal := inv.blocks_unique inv' same
  subst equal
  refine ⟨inv.free_eq inv', ?_, ?_⟩
  · rw [inv.units, inv'.units]
  · rw [inv.freeList_eq, inv'.freeList_eq]

end PageInv

/-- A run of frees takes the freed blocks out of the live ones, in whatever order. -/
theorem frees_live {bs : List LiveBlock} (run : Run (HistoryStep a p) s (bs.map PageCall.free) t) :
    t.live = s.live.diff bs := by
  induction bs generalizing s with
  | nil =>
    cases run
    rfl
  | cons b rest ih =>
    cases run with
    | cons step run =>
      rw [List.diff_cons, ← free_live step]
      exact ih run

/-- The free list is canonical. Two histories of one page that leave the same set
of live blocks leave the same `sp->free`, `sp->units` and free list. So freeing a
block just handed out undoes its allocation, and live blocks may be freed in any
order. -/
theorem slob_canonical_free_list (a : Arch) (frame : a.Frame) (heap heap' : Heap) (list list' : SizeClass)
    (calls calls' : List PageCall) (s t : PageState)
    (first : Run (HistoryStep a frame.number) ⟨freshPage a heap (a.pageStart frame.number) list, []⟩ calls s)
    (second : Run (HistoryStep a frame.number) ⟨freshPage a heap' (a.pageStart frame.number) list', []⟩
      calls' t) :
    let p := frame.number
    ((∀ e, e ∈ extents a s.live ↔ e ∈ extents a t.live) → SameFree a p s.heap t.heap) ∧
    (∀ (size : Nat) (align : Int) (bestSlob prevSlob : Option Nat) (b : LiveBlock) (u v : PageState),
      HistoryStep a p s (.alloc size align bestSlob prevSlob) u → u.live = b :: s.live →
      HistoryStep a p u (.free b) v → SameFree a p s.heap v.heap) ∧
    (∀ (bs cs : List LiveBlock) (u v : PageState), bs.Perm cs →
      Run (HistoryStep a p) s (bs.map PageCall.free) u →
      Run (HistoryStep a p) s (cs.map PageCall.free) v → SameFree a p u.heap v.heap) := by
  have inv := pageRun_invariant frame first ⟨_, PageInv.fresh heap list⟩
  have inv' := pageRun_invariant frame second ⟨_, PageInv.fresh heap' list'⟩
  refine ⟨fun same => ?_, ?_, ?_⟩
  · obtain ⟨_, inv⟩ := inv
    obtain ⟨_, inv'⟩ := inv'
    exact inv.sameFree inv' same
  · intro size align bestSlob prevSlob b u v allocate returned release
    obtain ⟨_, after⟩ := pageRun_invariant frame (.cons allocate (.cons release (.nil v))) inv
    obtain ⟨_, inv⟩ := inv
    have live : v.live = s.live := by rw [free_live release, returned, List.erase_cons_head]
    apply inv.sameFree after
    intro e
    rw [live]
  · intro bs cs u v perm run run'
    obtain ⟨_, after⟩ := pageRun_invariant frame run inv
    obtain ⟨_, after'⟩ := pageRun_invariant frame run' inv
    have live : u.live = v.live := by rw [frees_live run, frees_live run', perm.diff_left]
    apply after.sameFree after'
    intro e
    rw [live]

/-- The block handed out first, and two histories that leave only it. -/
theorem slob_canonical_free_list_second_freed :
    ∃ s t : PageState,
      Run (HistoryStep x86 1) ⟨freshPage x86 Heap.empty (x86.pageStart 1) .pico, []⟩
        [.alloc 10 0 none none] s ∧
      Run (HistoryStep x86 1) ⟨freshPage x86 Heap.empty (x86.pageStart 1) .pico, []⟩
        [.alloc 9 0 none none, .alloc 20 0 none none, .free ⟨2053, 20⟩] t ∧
      s.live = [⟨2048, 10⟩] ∧ t.live = [⟨2048, 9⟩] ∧ SameFree x86 1 s.heap t.heap := by
  have small (size : Nat) (positive : 0 < size) (less : size < 2 ^ 31) (s : PageState)
      (free : 0 < (s.heap.page 1).units) : PageCall.Permitted x86 1 s (.alloc size 0 none none) :=
    ⟨free, positive, less, .inl rfl, .inl ⟨rfl, rfl⟩⟩
  have first : ∃ s, Run (HistoryStep x86 1) ⟨freshPage x86 Heap.empty (x86.pageStart 1) .pico, []⟩
      [.alloc 10 0 none none] s ∧ s.live = [⟨2048, 10⟩] :=
    ⟨_, .cons ⟨small 10 (by decide) (by decide) _ (by decide), rfl⟩ (.nil _), rfl⟩
  have second : ∃ u, Run (HistoryStep x86 1) ⟨freshPage x86 Heap.empty (x86.pageStart 1) .pico, []⟩
      [.alloc 9 0 none none, .alloc 20 0 none none] u ∧
      u.live = [⟨2053, 20⟩, ⟨2048, 9⟩] ∧ (u.heap.page 1).units = 2033 :=
    ⟨_, .cons ⟨small 9 (by decide) (by decide) _ (by decide), rfl⟩
      (.cons ⟨small 20 (by decide) (by decide) _ (by decide), rfl⟩ (.nil _)), rfl, rfl⟩
  obtain ⟨s, run, live⟩ := first
  obtain ⟨u, run', live', units⟩ := second
  obtain ⟨_, inv⟩ := pageRun_invariant Arch.x86Frame run' ⟨_, PageInv.fresh Heap.empty .pico⟩
  have permitted : PageCall.Permitted x86 1 u (.free ⟨2053, 20⟩) :=
    ⟨by rw [live']; decide, by rw [units]; decide⟩
  obtain ⟨t, _, result, _⟩ := pageCall_preserves Arch.x86Frame inv permitted
  have final : t.live = [⟨2048, 9⟩] := by rw [free_live ⟨permitted, result⟩, live']; rfl
  have whole := run'.append (.cons ⟨permitted, result⟩ (.nil t))
  refine ⟨s, t, run, whole, live, final, ?_⟩
  apply (slob_canonical_free_list x86 Arch.x86Frame _ _ _ _ _ _ s t run whole).1
  intro e
  rw [live, final]
  rfl

end Cs544.Slob
