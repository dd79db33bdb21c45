import Cs544.Slob.Search

/-! The invariant of the whole SLOB heap.

Every page in use keeps the page invariant for the blocks live on it; the lists
hold exactly the pages with both a free unit and a live block, each on the list
of the size class of its live blocks. `slob_alloc` and `slob_free` keep all of
this on every path, including a refusal of the page allocator.
-/

set_option autoImplicit false

namespace Cs544.Slob

open Cs544.Library

def liveOn (a : Arch) (p : Nat) (live : List LiveBlock) : List LiveBlock :=
  live.filter fun b => a.pageOf b.addr = p

variable {a : Arch} {h h' : Heap} {p q size : Nat} {align : Int} {live live' : List LiveBlock}
  {b : LiveBlock}

theorem mem_liveOn : b ∈ liveOn a p live ↔ b ∈ live ∧ a.pageOf b.addr = p := by simp [liveOn]

theorem liveOn_cons_self (here : a.pageOf b.addr = p) :
    liveOn a p (b :: live) = b :: liveOn a p live := by simp [liveOn, here]

theorem liveOn_cons_of_ne (other : a.pageOf b.addr ≠ p) :
    liveOn a p (b :: live) = liveOn a p live := by simp [liveOn, other]

theorem liveOn_perm (perm : live.Perm live') : (liveOn a p live).Perm (liveOn a p live') :=
  perm.filter _

/-- What the allocator keeps true of a page it has obtained and not handed back. -/
structure PageUse (a : Arch) (h : Heap) (live : List LiveBlock) (p : Nat) : Prop where
  nonnull : 0 < p
  fits : (p + 1) * a.pageSize ≤ 2 ^ a.longBits
  page : ∃ blocks, PageInv a h p (liveOn a p live) blocks
  used : liveOn a p live ≠ []
  sameClass : ∀ b ∈ liveOn a p live, ∀ c ∈ liveOn a p live, slobList b.size = slobList c.size

structure HeapInv (a : Arch) (h : Heap) (live : List LiveBlock) : Prop where
  pages : ∀ p, (h.page p).slab = true → PageUse a h live p
  owned : ∀ b ∈ live, (h.page (a.pageOf b.addr)).slab = true
  listed : ∀ c p, p ∈ h.lists c ↔ (h.page p).slab = true ∧ (h.page p).slobFree = true ∧
    ∃ b ∈ liveOn a p live, slobList b.size = c
  nodup : ∀ c, (h.lists c).Nodup

/-- Units the allocator does not use: those of live blocks and of pages it does not have. -/
def Foreign (a : Arch) (h : Heap) (live : List LiveBlock) (x : Nat) : Prop :=
  (∃ b ∈ live, (b.extent a).Contains x) ∨ (h.page (a.pageOf x)).slab = false

namespace PageUse

theorem frame (use : PageUse a h live p) (page : h'.page p = h.page p)
    (mem : ∀ x, a.pageStart p ≤ x → x < a.pageEnd p → h'.mem x = h.mem x)
    (same : liveOn a p live' = liveOn a p live) : PageUse a h' live' p where
  nonnull := use.nonnull
  fits := use.fits
  page := by
    obtain ⟨blocks, inv⟩ := use.page
    exact ⟨blocks, same ▸ inv.frame page mem⟩
  used := same ▸ use.used
  sameClass := same ▸ use.sameClass

end PageUse

/-- Units of different pages are different. -/
theorem other_page {x : Nat} (low : a.pageStart q ≤ x) (high : x < a.pageEnd q) (other : q ≠ p)
    (low' : a.pageStart p ≤ x) (high' : x < a.pageEnd p) : False :=
  other ((Arch.pageOf_eq low high).symm.trans (Arch.pageOf_eq low' high'))

namespace HeapInv

theorem perm (inv : HeapInv a h live) (perm : live.Perm live') : HeapInv a h live' where
  pages p slab := by
    have use := inv.pages p slab
    obtain ⟨blocks, page⟩ := use.page
    have members {c : LiveBlock} : c ∈ liveOn a p live' ↔ c ∈ liveOn a p live :=
      (liveOn_perm perm).symm.mem_iff
    refine ⟨use.nonnull, use.fits, ⟨blocks, page.perm (liveOn_perm perm)⟩, fun none' => use.used ?_, ?_⟩
    · exact List.nil_perm.mp (none' ▸ (liveOn_perm perm).symm)
    · intro b first c second
      exact use.sameClass b (members.mp first) c (members.mp second)
  owned b member := inv.owned b (perm.mem_iff.mpr member)
  listed c p := by
    rw [inv.listed c p]
    simp only [mem_liveOn, perm.mem_iff]
  nodup := inv.nodup

/-- A page that is not in use is on no list and holds no live block. -/
theorem not_listed (inv : HeapInv a h live) (unused : (h.page p).slab = false) (c : SizeClass) :
    p ∉ h.lists c := by
  rw [inv.listed c p, unused]
  simp

theorem liveOn_eq_nil (inv : HeapInv a h live) (unused : (h.page p).slab = false) :
    liveOn a p live = [] := by
  refine List.filter_eq_nil_iff.mpr fun b member => ?_
  have slab := inv.owned b member
  simp only [decide_eq_true_eq]
  rintro rfl
  rw [unused] at slab
  cases slab

theorem block_bounds (inv : HeapInv a h live) {b : LiveBlock} (member : b ∈ live) :
    a.pageStart (a.pageOf b.addr) ≤ b.addr ∧ 0 < a.slobUnitsOf b.size ∧
      b.addr + a.slobUnitsOf b.size ≤ a.pageEnd (a.pageOf b.addr) := by
  obtain ⟨_, page⟩ := (inv.pages _ (inv.owned b member)).page
  exact page.inPage b (mem_liveOn.mpr ⟨member, rfl⟩)

/-- A live block covers only units of its own page. -/
theorem pageOf_unit (inv : HeapInv a h live) {b : LiveBlock} (member : b ∈ live) {x : Nat}
    (inside : (b.extent a).Contains x) : a.pageOf x = a.pageOf b.addr := by
  obtain ⟨low, _, high⟩ := inv.block_bounds member
  simp only [Extent.Contains, LiveBlock.extent] at inside
  exact Arch.pageOf_eq (by omega) (by omega)

/-- Blocks of one page are disjoint by the page invariant, blocks of different
pages because no block leaves its page. -/
theorem pairwise (inv : HeapInv a h live) :
    live.Pairwise fun b c => (b.extent a).Disjoint (c.extent a) := by
  rw [List.pairwise_iff_forall_sublist]
  intro b c sub
  have first : b ∈ live := sub.subset (by simp)
  have second : c ∈ live := sub.subset (by simp)
  by_cases same : a.pageOf b.addr = a.pageOf c.addr
  · obtain ⟨_, page⟩ := (inv.pages _ (inv.owned c second)).page
    refine List.pairwise_iff_forall_sublist.mp page.apart ?_
    simpa [liveOn, same] using sub.filter fun d => decide (a.pageOf d.addr = a.pageOf c.addr)
  · refine (Extent.disjoint_iff (inv.block_bounds first).2.1 (inv.block_bounds second).2.1).mpr ?_
    rintro x ⟨left, right⟩
    exact same ((inv.pageOf_unit first left).symm.trans (inv.pageOf_unit second right))

/-- Free units are in no live block. -/
theorem not_free (inv : HeapInv a h live) {blocks : List Extent} {x : Nat}
    (page : PageInv a h p (liveOn a p live) blocks) (covered : Covers blocks x) :
    a.pageOf x = p ∧ ¬ Covers (extents a live) x := by
  obtain ⟨low, high⟩ := Spaced.covers_bounds page.separated covered
  have here := Arch.pageOf_eq low high
  refine ⟨here, ?_⟩
  rintro ⟨_, member, inside⟩
  obtain ⟨c, used, rfl⟩ := List.mem_map.mp member
  have onPage : a.pageOf c.addr = p := (inv.pageOf_unit used inside).symm.trans here
  exact (page.tiles x low high).mp covered
    ⟨c.extent a, List.mem_map.mpr ⟨c, mem_liveOn.mpr ⟨used, onPage⟩, rfl⟩, inside⟩

theorem walkable (inv : HeapInv a h live) {c : SizeClass} (member : p ∈ h.lists c) : Walkable a h p := by
  obtain ⟨slab, marked, _⟩ := (inv.listed c p).mp member
  obtain ⟨blocks, page⟩ := (inv.pages p slab).page
  exact page.walkable (page.marked.mp marked)

/-- `best_fit` always returns, and reports success exactly when some page of the
list has a block with room enough. -/
theorem bestFit_eq (inv : HeapInv a h live) (list : SizeClass) (size : Nat) (align : Int)
    (page best prev : Option Nat) :
    ∃ n, bestFit a h list size align page best prev = .ok n ∧
      (n = 1 ↔ ∃ sp ∈ h.lists list, ∃ e ∈ freeList a h sp, Fits a (a.slobUnitsOf size) align e) := by
  obtain ⟨bs, result, found⟩ := bestFitPages_spec (h.lists list) fun sp member => inv.walkable member
  refine ⟨_, by rw [bestFit, result], ?_⟩
  rw [← found]
  split
  next selected => simp [selected]
  next missing => simp [missing]

/-- Memory the allocator does not use may change. -/
theorem store (inv : HeapInv a h live) {mem : Memory} (same : ∀ x, ¬ Foreign a h live x → mem x = h.mem x) :
    HeapInv a { h with mem } live where
  owned := inv.owned
  listed := inv.listed
  nodup := inv.nodup
  pages p slab := by
    have use := inv.pages p slab
    obtain ⟨blocks, page⟩ := use.page
    refine ⟨use.nonnull, use.fits, ⟨blocks, ?_⟩, use.used, use.sameClass⟩
    refine { page with follows := page.follows.frame page.separated fun x covered => same x ?_ }
    obtain ⟨here, outside⟩ := inv.not_free page covered
    rintro (⟨b, member, inside⟩ | unused)
    · exact outside ⟨b.extent a, List.mem_map.mpr ⟨b, member, rfl⟩, inside⟩
    · rw [here, slab] at unused
      cases unused

/-! ## Allocation -/

/-- On a new page the first block always has room, so `BUG_ON(!b)` cannot fire. -/
theorem fits_fresh (positive : size ≤ a.pageSize) (aligned : align = 0 ∨ ∃ k, align = 2 ^ k ∧ 2 ^ k ≤ a.pageSize)
    (frame : a.Frame) :
    Fits a (a.slobUnitsOf size) align ⟨a.pageStart frame.number, a.pageUnits⟩ := by
  have units := Arch.slobUnitsOf_le (a := a) positive
  have delta : deltaAt a (a.pageStart frame.number) align = 0 := by
    rcases aligned with rfl | ⟨k, rfl, small⟩
    · rfl
    · have shift : k ≤ a.pageShift := (Nat.pow_le_pow_iff_right (by decide)).mp small
      have limit := a.pageShift_le
      rw [deltaAt, if_pos (by positivity), Arch.delta_eq (by omega)
        (slobUnit_mul_lt frame.fits (a.pageStart_lt _)), Arch.skip, padding_eq_zero]
      · simp
      · rw [Arch.pageStart, Nat.mul_left_comm, a.slobUnit_mul_pageUnits]
        exact (Nat.pow_dvd_pow 2 shift).mul_left _
  simp only [Fits, delta]
  omega

/-- Clearing a block on `__GFP_ZERO` writes only to the block. -/
theorem memsetZero_of_not_contains {mem : Memory} {addr x : Nat}
    (outside : ¬ (LiveBlock.extent a ⟨addr, size⟩).Contains x) : memsetZero a mem addr size x = mem x := by
  have unit := a.slobUnit_pos
  have split := Nat.div_add_mod size a.slobUnit
  have whole : size / a.slobUnit ≤ a.slobUnitsOf size := Nat.div_le_div_right (by omega)
  have part : size % a.slobUnit ≠ 0 → size / a.slobUnit < a.slobUnitsOf size := fun rest => by
    have cover := a.le_slobUnit_mul size
    by_contra none'
    have := Nat.mul_le_mul_left a.slobUnit (Nat.le_of_not_lt none')
    omega
  simp only [LiveBlock.extent, Extent.Contains] at outside
  unfold memsetZero
  rw [if_neg (by omega), if_neg]
  rintro ⟨rfl, rest⟩
  have less := part rest
  generalize size / a.slobUnit = n at *
  omega

theorem alloc_page (frame : a.Frame) (h : Heap) (list : SizeClass) (positive : 0 < size)
    (small : size ≤ a.pageSize) (aligned : align = 0 ∨ ∃ k, align = 2 ^ k ∧ 2 ^ k ≤ a.pageSize) :
    ∃ addr mem free blocks,
      slobPageAlloc a (freshPage a h (a.pageStart frame.number) list) frame.number size align none none =
        .ok (some addr, chargePage a (freshPage a h (a.pageStart frame.number) list) frame.number mem free
          (a.slobUnitsOf size)) ∧
      PageInv a (chargePage a (freshPage a h (a.pageStart frame.number) list) frame.number mem free
        (a.slobUnitsOf size)) frame.number [⟨addr, size⟩] blocks ∧
      (align ≠ 0 → align ∣ (a.slobUnit * addr : Nat)) ∧
      ∀ x, ¬ (a.pageStart frame.number ≤ x ∧ x < a.pageEnd frame.number) → mem x = h.mem x := by
  have inv := PageInv.fresh (a := a) (p := frame.number) h list
  have ok : Arch.AlignOk align := by
    rcases aligned with rfl | ⟨k, rfl, small⟩
    · exact .inl rfl
    · have shift : k ≤ a.pageShift := (Nat.pow_le_pow_iff_right (by decide)).mp small
      exact .inr ⟨k, shift.trans a.pageShift_le, rfl⟩
  have start : FreeSeg a (freshPage a h (a.pageStart frame.number) list).mem ((none : Option Nat).getD _) _ _ :=
    inv.follows
  rcases PageInv.alloc (l := []) inv frame.fits positive ok (by simp) rfl start with
    ⟨none', _⟩ | ⟨_, _, _, addr, mem, free, _, _, _, _, result, after, _, _, divides, same⟩
  · exact absurd (fits_fresh small aligned frame) (none' _ (by simp))
  · refine ⟨addr, mem, free, _, result, after, divides, fun x outside => ?_⟩
    rw [same x]
    · exact setSlob_of_not_contains (e := ⟨a.pageStart frame.number, a.pageUnits⟩) a.pageUnits_pos outside
    · simp only [List.nil_append, covers_cons, covers_nil, or_false]
      exact outside

theorem alloc_new {frame : a.Frame} (inv : HeapInv a h live)
    (unused : (h.page frame.number).slab = false) {addr : Nat} {blocks : List Extent}
    (page : PageInv a h' frame.number [⟨addr, size⟩] blocks)
    (slab : (h'.page frame.number).slab = true)
    (pages : ∀ q, q ≠ frame.number → h'.page q = h.page q)
    (mem : ∀ x, ¬ (a.pageStart frame.number ≤ x ∧ x < a.pageEnd frame.number) → h'.mem x = h.mem x)
    (lists : ∀ c, h'.lists c =
      if c = slobList size ∧ (h'.page frame.number).slobFree = true then frame.number :: h.lists c
      else h.lists c) : HeapInv a h' (⟨addr, size⟩ :: live) := by
  obtain ⟨low, reserve, high⟩ : a.pageStart frame.number ≤ addr ∧ 0 < a.slobUnitsOf size ∧
      addr + a.slobUnitsOf size ≤ a.pageEnd frame.number := page.inPage ⟨addr, size⟩ (by simp)
  have here : a.pageOf addr = frame.number := Arch.pageOf_eq low (by omega)
  have alone : liveOn a frame.number (⟨addr, size⟩ :: live) = [⟨addr, size⟩] := by
    rw [liveOn_cons_self here, inv.liveOn_eq_nil unused]
  have others (q : Nat) (other : q ≠ frame.number) :
      liveOn a q (⟨addr, size⟩ :: live) = liveOn a q live :=
    liveOn_cons_of_ne (by simp only [here]; exact other.symm)
  refine ⟨fun q used => ?_, fun b member => ?_, fun c q => ?_, fun c => ?_⟩
  · by_cases same : q = frame.number
    · subst same
      exact ⟨frame.nonnull, frame.fits, ⟨blocks, alone ▸ page⟩, by simp [alone], by simp [alone]⟩
    · refine (inv.pages q (pages q same ▸ used)).frame (pages q same) (fun x lower upper => ?_) (others q same)
      exact mem x fun inside => other_page lower upper same inside.1 inside.2
  · rcases List.mem_cons.mp member with rfl | member
    · simp only [here]
      exact slab
    · have old := inv.owned b member
      rw [pages _ fun same => ?_]
      · exact old
      · rw [same, unused] at old
        cases old
  · rw [lists c]
    by_cases same : q = frame.number
    · subst same
      have absent := inv.not_listed unused c
      simp only [alone, List.mem_singleton, exists_eq_left, slab, true_and]
      split
      next both => simp [both.1, both.2]
      next neither =>
        simp only [absent, false_iff]
        rintro ⟨marked, rfl⟩
        exact neither ⟨rfl, marked⟩
    · rw [pages q same, others q same, ← inv.listed c q]
      split
      · simp [same]
      · rfl
  · rw [lists c]
    split
    · exact List.nodup_cons.mpr ⟨inv.not_listed unused c, inv.nodup c⟩
    · exact inv.nodup c

/-- `slob_alloc` when the page allocator hands out a page. -/
theorem alloc_some (inv : HeapInv a h live) (frame : a.Frame) (zero : Bool)
    (unused : (h.page frame.number).slab = false) (positive : 0 < size) (small : size ≤ a.pageSize)
    (aligned : align = 0 ∨ ∃ k, align = 2 ^ k ∧ 2 ^ k ≤ a.pageSize) :
    ∃ addr heap, slobAlloc h size zero align (some frame) = .ok ⟨some addr, heap, 1⟩ ∧
      HeapInv a heap (⟨addr, size⟩ :: live) ∧ a.pageOf addr = frame.number ∧
      a.pageStart frame.number ≤ addr ∧ addr + a.slobUnitsOf size ≤ a.pageEnd frame.number ∧
      (align ≠ 0 → align ∣ (a.slobUnit * addr : Nat)) ∧
      (∀ x, a.pageOf x ≠ frame.number → heap.mem x = h.mem x) ∧
      ∀ q, q ≠ frame.number → heap.page q = h.page q := by
  obtain ⟨n, search, _⟩ := inv.bestFit_eq (slobList size) size align none none none
  obtain ⟨addr, mem, free, blocks, result, page, divides, same⟩ :=
    alloc_page frame h (slobList size) positive small aligned
  obtain ⟨low, reserve, high⟩ : a.pageStart frame.number ≤ addr ∧ 0 < a.slobUnitsOf size ∧
      addr + a.slobUnitsOf size ≤ a.pageEnd frame.number := page.inPage ⟨addr, size⟩ (by simp)
  have number : a.pageOf (a.pageStart frame.number) = frame.number :=
    Arch.pageOf_eq le_rfl (a.pageStart_lt _)
  let charged := chargePage a (freshPage a h (a.pageStart frame.number) (slobList size)) frame.number mem
    free (a.slobUnitsOf size)
  have call : slobAlloc h size zero align (some frame) =
      .ok ⟨some addr, zeroBlock a charged zero addr size, 1⟩ := by
    simp only [slobAlloc, search, result, charged]
  have clear (x : Nat) (outside : ¬ (LiveBlock.extent a ⟨addr, size⟩).Contains x) :
      (zeroBlock a charged zero addr size).mem x = charged.mem x := by
    cases zero with
    | false => rfl
    | true => exact memsetZero_of_not_contains outside
  have table : (zeroBlock a charged zero addr size).page = charged.page := by
    cases zero <;> rfl
  have listsEq : (zeroBlock a charged zero addr size).lists = charged.lists := by
    cases zero <;> rfl
  have pages (q : Nat) (other : q ≠ frame.number) :
      (zeroBlock a charged zero addr size).page q = h.page q := by
    rw [table]
    simp only [charged, chargePage_page_of_ne _ _ _ _ _ other]
    simp [freshPage, number, Heap.setPage, setSlobPage, other]
  have memory (x : Nat) (outside : ¬ (a.pageStart frame.number ≤ x ∧ x < a.pageEnd frame.number)) :
      (zeroBlock a charged zero addr size).mem x = h.mem x := by
    rw [clear x, chargePage_mem, same x outside]
    simp only [LiveBlock.extent, Extent.Contains]
    omega
  refine ⟨addr, _, call, inv.alloc_new unused (page.zeroed clear table) ?_ pages memory ?_,
    Arch.pageOf_eq low (by omega), low, high, divides,
    fun x other => memory x fun inside => other (Arch.pageOf_eq inside.1 inside.2), pages⟩
  · rw [table]
    simp [charged, freshPage, number, Heap.setPage, setSlobPage]
  · intro c
    have absent := inv.not_listed unused c
    have fresh : (freshPage a h (a.pageStart frame.number) (slobList size)).lists c =
        if c = slobList size then frame.number :: h.lists c else h.lists c := by
      by_cases same : c = slobList size
      · simp [freshPage, number, same, setSlobPage, Heap.setPage]
      · simp [freshPage, same, setSlobPage, Heap.setPage]
    have flag : ((freshPage a h (a.pageStart frame.number) (slobList size)).page frame.number).slobFree =
        true := by simp [freshPage, number]
    rw [table, listsEq]
    simp only [charged, chargePage_lists, chargePage_page_self, flag, Bool.true_and, bne_iff_ne, fresh]
    -- A page that is full at once has been taken off its list again.
    by_cases full : slobidx a
        (((freshPage a h (a.pageStart frame.number) (slobList size)).page frame.number).units -
          a.slobUnitsOf size) = 0
    · simp only [full, if_true, ne_eq, not_true_eq_false, and_false, if_false]
      by_cases same : c = slobList size
      · rw [if_pos same, List.erase_cons_head]
      · rw [if_neg same, List.erase_of_not_mem absent]
    · rw [if_neg full]
      by_cases same : c = slobList size
      · rw [if_pos same, if_pos ⟨same, full⟩]
      · rw [if_neg same, if_neg fun both => same both.1]

/-! ## Freeing -/

/-- The last block of a page: the page goes back to the page allocator. -/
theorem free_last (inv : HeapInv a h (b :: live)) (last : liveOn a (a.pageOf b.addr) live = [])
    (pages : ∀ q, q ≠ a.pageOf b.addr → h'.page q = h.page q)
    (slab : (h'.page (a.pageOf b.addr)).slab = false) (mem : h'.mem = h.mem)
    (lists : ∀ c, h'.lists c = (h.lists c).erase (a.pageOf b.addr)) : HeapInv a h' live := by
  have others (q : Nat) (other : q ≠ a.pageOf b.addr) : liveOn a q (b :: live) = liveOn a q live :=
    liveOn_cons_of_ne other.symm
  refine ⟨fun q used => ?_, fun c member => ?_, fun c q => ?_, fun c => ?_⟩
  · have other : q ≠ a.pageOf b.addr := by
      rintro rfl
      rw [slab] at used
      cases used
    exact (inv.pages q (pages q other ▸ used)).frame (pages q other) (fun x _ _ => by rw [mem])
      (others q other).symm
  · rw [pages _ fun same => ?_]
    · exact inv.owned c (by simp [member])
    · have : c ∈ liveOn a (a.pageOf b.addr) live := mem_liveOn.mpr ⟨member, same⟩
      rw [last] at this
      cases this
  · rw [lists c]
    by_cases same : q = a.pageOf b.addr
    · subst same
      simp [slab, (inv.nodup c).not_mem_erase]
    · rw [List.mem_erase_of_ne same, inv.listed c q, pages q same, others q same]
  · rw [lists c]
    exact (inv.nodup c).erase _

/-- The lists behind a free that leaves live blocks on the page. -/
def freedLists (a : Arch) (h : Heap) (b : LiveBlock) : SizeClass → List Nat :=
  if (h.page (a.pageOf b.addr)).slobFree then h.lists
  else Function.update h.lists (slobList b.size) (a.pageOf b.addr :: h.lists (slobList b.size))

/-- The blocks that stay on the page of a freed one are of its class. -/
theorem freed_class (inv : HeapInv a h (b :: live)) {c : LiveBlock}
    (member : c ∈ liveOn a (a.pageOf b.addr) live) : slobList c.size = slobList b.size := by
  have use := inv.pages _ (inv.owned b (by simp))
  have here : liveOn a (a.pageOf b.addr) (b :: live) = b :: liveOn a (a.pageOf b.addr) live :=
    liveOn_cons_self rfl
  exact use.sameClass c (by simp [here, member]) b (by simp [here])

/-- The page of a freed block is on the list of its class, before or from now on, and on
no other. -/
theorem mem_freedLists (inv : HeapInv a h (b :: live)) (c : SizeClass) :
    a.pageOf b.addr ∈ freedLists a h b c ↔ c = slobList b.size := by
  have before := inv.listed c (a.pageOf b.addr)
  simp only [inv.owned b (by simp), true_and, liveOn_cons_self rfl, List.mem_cons, exists_eq_or_imp] at before
  rw [freedLists]
  by_cases free : (h.page (a.pageOf b.addr)).slobFree = true
  · rw [if_pos free, before]
    simp only [free, true_and]
    constructor
    · rintro (same | ⟨d, used, same⟩)
      · exact same.symm
      · exact same ▸ inv.freed_class used
    · exact fun same => .inl same.symm
  · rw [if_neg free]
    by_cases same : c = slobList b.size
    · subst same
      simp
    · simp only [Function.update_of_ne same, before, free, Bool.false_eq_true, false_and, false_iff]
      exact same

theorem mem_freedLists_of_ne (other : q ≠ a.pageOf b.addr) (c : SizeClass) :
    q ∈ freedLists a h b c ↔ q ∈ h.lists c := by
  rw [freedLists]
  split
  · rfl
  · by_cases target : c = slobList b.size
    · subst target
      simp [other]
    · rw [Function.update_of_ne target]

theorem nodup_freedLists (inv : HeapInv a h (b :: live)) (c : SizeClass) : (freedLists a h b c).Nodup := by
  rw [freedLists]
  split
  · exact inv.nodup c
  next unmarked =>
    by_cases target : c = slobList b.size
    · subst target
      rw [Function.update_self]
      refine List.nodup_cons.mpr ⟨fun listed => unmarked ?_, inv.nodup _⟩
      exact ((inv.listed _ _).mp listed).2.1
    · rw [Function.update_of_ne target]
      exact inv.nodup c

/-- The page keeps a live block, and stays. -/
theorem free_kept (inv : HeapInv a h (b :: live)) {blocks : List Extent}
    (page : PageInv a h' (a.pageOf b.addr) (liveOn a (a.pageOf b.addr) live) blocks)
    (kept : liveOn a (a.pageOf b.addr) live ≠ []) (marked : (h'.page (a.pageOf b.addr)).slobFree = true)
    (slab : (h'.page (a.pageOf b.addr)).slab = true)
    (pages : ∀ q, q ≠ a.pageOf b.addr → h'.page q = h.page q)
    (mem : ∀ x, ¬ (a.pageStart (a.pageOf b.addr) ≤ x ∧ x < a.pageEnd (a.pageOf b.addr)) →
      h'.mem x = h.mem x)
    (lists : h'.lists = freedLists a h b) : HeapInv a h' live := by
  have others (q : Nat) (other : q ≠ a.pageOf b.addr) : liveOn a q (b :: live) = liveOn a q live :=
    liveOn_cons_of_ne other.symm
  have use := inv.pages _ (inv.owned b (by simp))
  refine ⟨fun q used => ?_, fun c member => ?_, fun c q => ?_, fun c => ?_⟩
  · by_cases same : q = a.pageOf b.addr
    · subst same
      refine ⟨use.nonnull, use.fits, ⟨blocks, page⟩, kept, fun c first d second => ?_⟩
      rw [inv.freed_class first, inv.freed_class second]
    · refine (inv.pages q (pages q same ▸ used)).frame (pages q same) (fun x lower upper => ?_)
        (others q same).symm
      exact mem x fun inside => other_page lower upper same inside.1 inside.2
  · by_cases same : a.pageOf c.addr = a.pageOf b.addr
    · rw [same, slab]
    · rw [pages _ same]
      exact inv.owned c (by simp [member])
  · by_cases same : q = a.pageOf b.addr
    · subst same
      rw [lists, inv.mem_freedLists c]
      simp only [slab, marked, true_and]
      constructor
      · rintro rfl
        obtain ⟨d, used⟩ := List.exists_mem_of_ne_nil _ kept
        exact ⟨d, used, inv.freed_class used⟩
      · rintro ⟨d, used, rfl⟩
        exact inv.freed_class used
    · rw [lists, mem_freedLists_of_ne same c, pages q same, ← others q same, inv.listed c q]
  · rw [lists]
    exact inv.nodup_freedLists c

theorem free (inv : HeapInv a h (b :: live)) :
    ∃ h', slobFree a h b.addr b.size = .ok h' ∧ HeapInv a h' live ∧
      (∀ x, Covers (extents a live) x → h'.mem x = h.mem x) ∧
      ∀ q, (h.page q).slab = false → (h'.page q).slab = false := by
  have slab := inv.owned b (by simp)
  have use := inv.pages _ slab
  obtain ⟨blocks, page⟩ := use.page
  have outside (x : Nat) (covered : Covers blocks x) : ¬ Covers (extents a live) x := fun used => by
    refine (inv.not_free page covered).2 ?_
    rw [extents_cons, covers_cons]
    exact .inr used
  rw [liveOn_cons_self rfl] at page
  obtain ⟨low, reserve, high⟩ := page.inPage b (by simp)
  obtain ⟨pointer, size, _⟩ := page.free_guards use.nonnull
  by_cases full : (h.page (a.pageOf b.addr)).units + a.slobUnitsOf b.size = a.pageUnits
  · let given := clearSlobPage (if (h.page (a.pageOf b.addr)).slobFree
      then clearSlobPageFree h (a.pageOf b.addr) else h) (a.pageOf b.addr)
    have pages (q : Nat) (other : q ≠ a.pageOf b.addr) : given.page q = h.page q := by
      simp only [given]
      split <;> simp [clearSlobPage, Heap.setPage, other]
    have gone : (given.page (a.pageOf b.addr)).slab = false := by simp [given, clearSlobPage, Heap.setPage]
    have memory : given.mem = h.mem := by
      simp only [given]
      split <;> rfl
    refine ⟨given, ?_, inv.free_last (page.last_iff.mp full) pages gone memory ?_,
      fun x _ => by rw [memory], fun q unused => ?_⟩
    · simp only [slobFree, if_neg pointer, if_neg size, if_pos full, given]
    · intro c
      simp only [given]
      split
      next => rfl
      next unmarked =>
        refine (List.erase_of_not_mem fun listed => unmarked ?_).symm
        exact ((inv.listed c _).mp listed).2.1
    · by_cases same : q = a.pageOf b.addr
      · rw [same, gone]
      · rw [pages q same, unused]
  · obtain ⟨h', blocks', result, after, pages, same, lists, mem⟩ := page.free use.nonnull full
    have whole := page.whole
    have whole' := after.whole
    simp only [extents_cons, total_cons, LiveBlock.extent] at whole
    refine ⟨h', result, inv.free_kept after (fun none' => full (page.last_iff.mpr none'))
      (after.marked.mpr ?_) (same.trans slab) pages (fun x outside => mem x ?_ ?_) lists,
      fun x used => mem x (fun free => outside x free used) fun inside => ?_, fun q unused => ?_⟩
    · rw [after.units]
      omega
    · exact fun covered => outside (Spaced.covers_bounds page.separated covered)
    · intro inside
      simp only [Extent.Contains, LiveBlock.extent] at inside
      omega
    · obtain ⟨_, member, inside'⟩ := used
      obtain ⟨c, other, rfl⟩ := List.mem_map.mp member
      have apart := (List.pairwise_cons.mp inv.pairwise).1 c other
      simp only [Extent.Disjoint, Extent.stop, Extent.Contains] at apart inside inside'
      omega
    · rw [pages q fun same' => ?_]
      · exact unused
      · rw [same', slab] at unused
        cases unused

end HeapInv

end Cs544.Slob
