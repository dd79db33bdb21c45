import Mathlib.Data.Nat.Log
import Cs544.Library.Runs
import Cs544.Slob.HeapRuns
import Cs544.Slob.Kmalloc

/-! Histories of `__kmalloc_node` and `kfree`.

Every call keeps every object sound: the sizes stay where `ksize` and `kfree` look for them,
and the memory of two objects stays apart. Owners write into their objects at any time.
-/

set_option autoImplicit false

namespace Cs544.Slob

open Cs544.Library

/-- `get_order`: the least order whose pages hold the size. -/
def LeastOrder (a : Arch) (getOrder : Nat → Nat) : Prop :=
  ∀ size, size ≤ 2 ^ getOrder size * a.pageSize ∧ ∀ order, size ≤ 2 ^ order * a.pageSize → getOrder size ≤ order

/-- A page the page allocator may hand out. -/
def KHeap.Unused (k : KHeap) (q : Nat) : Prop :=
  (k.heap.page q).slab = false ∧ ∀ first order, k.orders first = some order → ¬ (first ≤ q ∧ q < first + 2 ^ order)

structure KState where
  heap : KHeap
  live : List Object

/-- Before the first call: no page obtained, every list empty. -/
def KState.Initial (s : KState) : Prop :=
  HeapState.Initial ⟨s.heap.heap, []⟩ ∧ (∀ p, s.heap.orders p = none) ∧ s.live = []

inductive KCall (a : Arch) where
  | kmalloc (size : Nat) (zero : Bool) (newPages : Nat → Option a.Frame)
  | kfree (ptr : Nat)
  | write (unit : Nat) (value : Int)

variable {a : Arch} (min : MinAlign a) (getOrder : Nat → Nat)

/-- When a call may be made. Sizes are of type `size_t`, pages of the page allocator are not in
use, and a unit that is written starts inside an object or in a page that is not in use. -/
def KCall.Allowed (s : KState) : KCall a → Prop
  | .kmalloc size _ newPages =>
      size < 2 ^ a.longBits ∧ ∀ order, ∀ frame ∈ newPages order,
        ∀ q, frame.number ≤ q → q < frame.number + 2 ^ order → s.heap.Unused q
  | .kfree ptr => ptr = 0 ∨ ptr = zeroSizePtr ∨ ∃ o ∈ s.live, o.ptr = ptr
  | .write unit _ =>
      (∃ o ∈ s.live, ∃ n, ksize min s.heap o.ptr = .ok n ∧ (⟨o.ptr, n⟩ : Extent).Contains (a.slobUnit * unit)) ∨
        s.heap.Unused (a.pageOf unit)

def kCall (s : KState) : KCall a → Except Fault KState
  | .kmalloc size zero newPages =>
      match kmallocNode min getOrder s.heap size zero newPages with
      | .error fault => .error fault
      | .ok ⟨some ptr, heap, some obtained⟩ => .ok ⟨heap, ⟨ptr, size, obtained⟩ :: s.live⟩
      | .ok ⟨_, heap, _⟩ => .ok { s with heap }
  | .kfree ptr =>
      match kfree min s.heap ptr with
      | .error fault => .error fault
      | .ok heap => .ok ⟨heap, s.live.eraseP fun o => o.ptr = ptr⟩
  | .write unit value =>
      .ok { s with heap := { s.heap with heap := { s.heap.heap with
        mem := Function.update s.heap.heap.mem unit value } } }

def KStep (s : KState) (call : KCall a) (t : KState) : Prop :=
  call.Allowed min s ∧ kCall min getOrder s call = .ok t

variable {min} {getOrder} {k k' : KHeap} {live live' : List Object} {o : Object}

/-! ## Calls -/

theorem Object.Sound.frame (sound : o.Sound min k)
    (header : ∀ b, o.obtained = .block b → ∀ x, (⟨b.addr, uintUnits a⟩ : Extent).Contains x →
      k'.heap.mem x = k.heap.mem x)
    (pages : ∀ first order, o.obtained = .pages first order → k.orders first = some order →
      k'.orders first = k.orders first ∧ k'.pagePrivate first = k.pagePrivate first ∧
      ∀ q, first ≤ q → q < first + 2 ^ order → (k.heap.page q).slab = false → (k'.heap.page q).slab = false) :
    o.Sound min k' := by
  cases memory : o.obtained with
  | block b =>
    obtain ⟨ptr, size, positive, small, stored⟩ := sound.block memory
    simp only [Object.Sound, memory]
    exact ⟨ptr, size, positive, small, by rw [loadUint_congr (header b memory), stored]⟩
  | pages first order =>
    obtain ⟨ptr, nonnull, size, record, stored, flags⟩ := sound.pages memory
    obtain ⟨orders, sizes, slabs⟩ := pages first order memory record
    simp only [Object.Sound, memory]
    exact ⟨ptr, nonnull, size, orders.trans record, sizes.trans stored,
      fun q low high => slabs q low high (flags q low high)⟩

/-- The units of a header are units of the block. -/
theorem Object.Sound.header_unit {b : LiveBlock} {x : Nat} (sound : o.Sound min k)
    (memory : o.obtained = .block b) (inside : (⟨b.addr, uintUnits a⟩ : Extent).Contains x) :
    (b.extent a).Contains x ∧ x < b.addr + min.units := by
  have size := (sound.block memory).size
  have header := min.uintUnits_le
  simp only [Extent.Contains, LiveBlock.extent, size, MinAlign.slobUnitsOf_add] at inside ⊢
  omega

namespace KInv

theorem perm (inv : KInv min k live) (perm : live.Perm live') : KInv min k live' where
  heap := inv.heap.perm (perm.filterMap Object.block)
  sound o member := inv.sound o (perm.mem_iff.mpr member)
  apart := by
    refine (perm.pairwise_iff fun {o o'} apart => ?_).mp inv.apart
    intro first order first' order' memory memory'
    exact (apart first' order' first order memory' memory).symm

theorem disjoint_others {o' : Object} (inv : KInv min k live) (member : o ∈ live) (other : o' ∈ live.erase o) :
    (o.obtained.extent a).Disjoint (o'.obtained.extent a) :=
  (List.pairwise_cons.mp (inv.perm (List.perm_cons_erase member)).extents_apart).1 o' other

/-- The page of a header is a slob page. -/
theorem header_slab {b : LiveBlock} {x : Nat} (inv : KInv min k live) (member : o ∈ live)
    (memory : o.obtained = .block b) (inside : (⟨b.addr, uintUnits a⟩ : Extent).Contains x) :
    (k.heap.page (a.pageOf x)).slab = true := by
  have used := mem_blocks member memory
  rw [inv.heap.pageOf_unit used ((inv.sound o member).header_unit memory inside).1]
  exact inv.heap.owned b used

/-- A block of `slob_alloc`, with its header written. -/
theorem kmalloc_block {size : Nat} (inv : KInv min k live) (frame : a.Frame) (zero : Bool)
    (unused : k.Unused frame.number) (positive : 0 < size) (small : size + min.align < a.pageSize) :
    ∃ addr heap n, slobAlloc k.heap (size + min.align) zero min.align (some frame) = .ok ⟨some addr, heap, n⟩ ∧
      KInv min { k with heap := { heap with mem := storeUint a heap.mem addr size } }
        (⟨a.slobUnit * addr + min.align, size, .block ⟨addr, size + min.align⟩⟩ :: live) := by
  obtain ⟨exponent, power⟩ := min.power
  have aligned : (min.align : Int) = 0 ∨ ∃ e : Nat, (min.align : Int) = 2 ^ e ∧ 2 ^ e ≤ a.pageSize :=
    .inr ⟨exponent, by rw [power]; push_cast; rfl, power ▸ min.align_le⟩
  obtain ⟨addr, heap, result, after, here, _, _, _, memory, pages⟩ :=
    inv.heap.alloc_some frame zero unused.1 (Nat.add_pos_left positive _) small.le aligned
  have header {x : Nat} (inside : (⟨addr, uintUnits a⟩ : Extent).Contains x) :
      (LiveBlock.extent a ⟨addr, size + min.align⟩).Contains x := by
    have units := min.uintUnits_le
    simp only [Extent.Contains, LiveBlock.extent, MinAlign.slobUnitsOf_add] at inside ⊢
    omega
  have elsewhere {x : Nat} (slab : (k.heap.page (a.pageOf x)).slab = true) :
      storeUint a heap.mem addr size x = k.heap.mem x := by
    have other : a.pageOf x ≠ frame.number := fun same => by
      rw [same, unused.1] at slab
      cases slab
    rw [storeUint_of_not_contains, memory x other]
    intro inside
    exact other ((after.pageOf_unit (by simp) (header inside)).trans here)
  refine ⟨addr, heap, 1, result, ?_, ?_, ?_⟩
  · refine after.store fun x owned => storeUint_of_not_contains fun inside => owned (.inl ⟨_, ?_, header inside⟩)
    simp [Object.block]
  · intro o member
    rcases List.mem_cons.mp member with rfl | member
    · have page : a.pageSize ≤ 2 ^ 30 := Nat.pow_le_pow_right (by decide) a.pageShift_le
      exact ⟨rfl, rfl, positive, small, loadUint_storeUint (by omega)⟩
    · refine (inv.sound o member).frame (fun b memory x inside => elsewhere (inv.header_slab member memory inside))
        fun first order memory record => ⟨rfl, rfl, fun q low high flag => ?_⟩
      have other : q ≠ frame.number := fun same => unused.2 first order record (same ▸ ⟨low, high⟩)
      simp only [pages q other, flag]
  · refine List.pairwise_cons.mpr ⟨fun o _ => ?_, inv.apart⟩
    rintro first order first' order' ⟨⟩

/-- Whole pages, with their size in `page->private`. -/
theorem kmalloc_pages {size order : Nat} (inv : KInv min k live) (frame : a.Frame) (zero : Bool)
    (unused : ∀ q, frame.number ≤ q → q < frame.number + 2 ^ order → k.Unused q)
    (enough : size ≤ 2 ^ order * a.pageSize) :
    KInv min
      { heap := { k.heap with mem := newMemory a k.heap.mem zero frame.number order }
        pagePrivate := Function.update k.pagePrivate frame.number size
        orders := Function.update k.orders frame.number (some order) }
      (⟨frame.number * a.pageSize, size, .pages frame.number order⟩ :: live) := by
  have first : k.Unused frame.number := unused _ le_rfl (Nat.lt_add_of_pos_right (Nat.two_pow_pos order))
  have elsewhere {x : Nat} (slab : (k.heap.page (a.pageOf x)).slab = true) :
      newMemory a k.heap.mem zero frame.number order x = k.heap.mem x := by
    refine if_neg fun ⟨_, low, high⟩ => ?_
    rw [(unused _ low high).1] at slab
    cases slab
  refine ⟨?_, ?_, ?_⟩
  · refine inv.heap.store fun x owned => elsewhere ?_
    exact Bool.of_not_eq_false fun unused => owned (.inr unused)
  · intro o member
    rcases List.mem_cons.mp member with rfl | member
    · exact ⟨rfl, frame.nonnull, enough, Function.update_self .., Function.update_self ..,
        fun q low high => (unused q low high).1⟩
    · refine (inv.sound o member).frame (fun b memory x inside => elsewhere (inv.header_slab member memory inside))
        fun head order' memory record => ?_
      have other : head ≠ frame.number := fun same =>
        first.2 head order' record ⟨same.le, by have := Nat.two_pow_pos order'; omega⟩
      exact ⟨Function.update_of_ne other .., Function.update_of_ne other .., fun q _ _ flag => flag⟩
  · refine List.pairwise_cons.mpr ⟨fun o member => ?_, inv.apart⟩
    rintro _ _ head order' ⟨⟩ memory
    have record := ((inv.sound o member).pages memory).record
    have positive := Nat.two_pow_pos order'
    by_contra overlap
    -- The later of the two first pages is in both ranges.
    rcases Nat.le_total frame.number head with below | above
    · exact (unused head below (by omega)).2 head order' record ⟨le_rfl, by omega⟩
    · exact first.2 head order' record ⟨above, by omega⟩

theorem kfree_block {b : LiveBlock} (inv : KInv min k (o :: live)) (memory : o.obtained = .block b) :
    ∃ heap, slobFree a k.heap b.addr b.size = .ok heap ∧ KInv min { k with heap } live := by
  have blocks : (o :: live).filterMap Object.block = b :: live.filterMap Object.block := by
    simp [Object.block, memory]
  obtain ⟨heap, result, after, same, flags⟩ := (blocks ▸ inv.heap).free
  refine ⟨heap, result, after, fun o' member => ?_, (List.pairwise_cons.mp inv.apart).2⟩
  have sound := inv.sound o' (by simp [member])
  refine sound.frame (fun b' memory' x inside => same x ?_)
    fun first order _ _ => ⟨rfl, rfl, fun q _ _ flag => flags q flag⟩
  exact ⟨b'.extent a, List.mem_map.mpr ⟨b', mem_blocks member memory', rfl⟩,
    (sound.header_unit memory' inside).1⟩

theorem kfree_pages {first order : Nat} (inv : KInv min k (o :: live)) (memory : o.obtained = .pages first order) :
    KInv min { k with orders := Function.update k.orders first none } live := by
  have blocks : (o :: live).filterMap Object.block = live.filterMap Object.block := by
    simp [Object.block, memory]
  refine ⟨blocks ▸ inv.heap, fun o' member => ?_, (List.pairwise_cons.mp inv.apart).2⟩
  refine (inv.sound o' (by simp [member])).frame (fun _ _ _ _ => rfl) fun first' order' memory' _ => ?_
  have apart := (List.pairwise_cons.mp inv.apart).1 o' member first order first' order' memory memory'
  have positive := Nat.two_pow_pos order
  have positive' := Nat.two_pow_pos order'
  exact ⟨Function.update_of_ne (by omega) .., rfl, fun q _ _ flag => flag⟩

/-! ## Writes -/

/-- A unit of an object is in the memory obtained for it. -/
theorem unit_obtained {unit : Nat} (inv : KInv min k live) (member : o ∈ live)
    (inside : (o.range a).Contains (a.slobUnit * unit)) : (o.obtained.extent a).Contains (a.slobUnit * unit) := by
  obtain ⟨start, header, stop⟩ := (inv.sound o member).inside
  simp only [Object.range, Extent.stop, Extent.Contains] at *
  omega

theorem unit_foreign {unit : Nat} (inv : KInv min k live) (member : o ∈ live)
    (inside : (o.range a).Contains (a.slobUnit * unit)) :
    Foreign a k.heap (live.filterMap Object.block) unit := by
  have bytes := inv.unit_obtained member inside
  cases memory : o.obtained with
  | block b =>
    simp only [memory, Obtained.extent, Extent.Contains, ← Nat.mul_add] at bytes
    refine .inl ⟨b, mem_blocks member memory, ?_⟩
    exact ⟨Nat.le_of_mul_le_mul_left bytes.1 a.slobUnit_pos, Nat.lt_of_mul_lt_mul_left bytes.2⟩
  | pages first order =>
    have flags := ((inv.sound o member).pages memory).flags
    have page : 0 < a.pageSize := Nat.two_pow_pos _
    simp only [memory, Obtained.extent, Extent.Contains, ← Nat.add_mul] at bytes
    refine .inr ?_
    rw [← pageOfByte_mul]
    exact flags _ ((Nat.le_div_iff_mul_le page).mpr bytes.1) ((Nat.div_lt_iff_lt_mul page).mpr bytes.2)

/-- Writing into an object touches no header, neither its own nor another one. -/
theorem unit_not_header {o' : Object} {b : LiveBlock} {unit : Nat} (inv : KInv min k live) (member : o ∈ live)
    (inside : (o.range a).Contains (a.slobUnit * unit)) (member' : o' ∈ live) (memory : o'.obtained = .block b) :
    ¬ (⟨b.addr, uintUnits a⟩ : Extent).Contains unit := by
  intro header
  have sound := inv.sound o' member'
  obtain ⟨extent, before⟩ := sound.header_unit memory header
  by_cases same : o' = o
  · subst same
    have start := inside.1
    simp only [Object.range, (sound.block memory).ptr, ← min.slobUnit_mul_units, ← Nat.mul_add] at start
    have := Nat.le_of_mul_le_mul_left start a.slobUnit_pos
    omega
  · have apart := inv.disjoint_others member ((List.mem_erase_of_ne same).mpr member')
    have bytes := inv.unit_obtained member inside
    have low := Nat.mul_le_mul_left a.slobUnit extent.1
    have high := Nat.mul_lt_mul_of_pos_left extent.2 a.slobUnit_pos
    simp only [memory, Obtained.extent, LiveBlock.extent, Extent.Disjoint, Extent.stop, Extent.Contains,
      Nat.mul_add] at apart bytes low high
    omega

theorem write {unit : Nat} {value : Int} (inv : KInv min k live)
    (allowed : (KCall.write unit value).Allowed min ⟨k, live⟩) :
    KInv min { k with heap := { k.heap with mem := Function.update k.heap.mem unit value } } live := by
  obtain ⟨foreign, headers⟩ : Foreign a k.heap (live.filterMap Object.block) unit ∧
      ∀ o ∈ live, ∀ b, o.obtained = .block b → ¬ (⟨b.addr, uintUnits a⟩ : Extent).Contains unit := by
    rcases allowed with ⟨o, member, n, size, inside⟩ | ⟨unused, _⟩
    · rw [inv.ksize_eq member] at size
      cases size
      exact ⟨inv.unit_foreign member inside, fun o' member' b => inv.unit_not_header member inside member'⟩
    · refine ⟨.inr unused, fun o member b memory header => ?_⟩
      have slab := inv.header_slab member memory header
      change (k.heap.page (a.pageOf unit)).slab = false at unused
      rw [unused] at slab
      cases slab
  refine ⟨inv.heap.write foreign, fun o member => ?_, inv.apart⟩
  refine (inv.sound o member).frame (fun b memory x header => ?_)
    fun first order _ _ => ⟨rfl, rfl, fun q _ _ flag => flag⟩
  refine Function.update_of_ne (fun same : x = unit => ?_) _ _
  exact headers o member b memory (same ▸ header)

end KInv

/-! ## Histories -/

theorem pageSize_sub_align : (a.pageSize + 2 ^ a.longBits - min.align) % 2 ^ a.longBits = a.pageSize - min.align := by
  have inside := min.align_le
  have positive := min.align_ge
  have page : a.pageSize < 2 ^ a.longBits := by
    have word := a.longBits_ge
    have shift := a.pageShift_le
    exact Nat.pow_lt_pow_right (by decide) (by omega)
  rw [Nat.sub_add_comm inside, Nat.add_mod_right, Nat.mod_eq_of_lt (by omega)]

theorem kmalloc_preserves {s : KState} {size : Nat} {zero : Bool} {newPages : Nat → Option a.Frame}
    (least : LeastOrder a getOrder) (inv : KInv min s.heap s.live)
    (allowed : (KCall.kmalloc size zero newPages).Allowed min s) :
    ∃ t, kCall min getOrder s (.kmalloc size zero newPages) = .ok t ∧ KInv min t.heap t.live := by
  obtain ⟨_, unused⟩ := allowed
  simp only [kCall, kmallocNode, pageSize_sub_align]
  by_cases small : size < a.pageSize - min.align
  · rw [if_pos small]
    by_cases zero' : size = 0
    · rw [if_pos zero']
      exact ⟨s, rfl, inv⟩
    · rw [if_neg zero']
      cases answer : newPages 0 with
      | none =>
        rw [inv.heap.alloc_none]
        exact ⟨s, rfl, inv⟩
      | some frame =>
        obtain ⟨addr, heap, n, result, after⟩ := inv.kmalloc_block frame zero
          (unused 0 frame answer _ le_rfl (by simp)) (Nat.pos_of_ne_zero zero') (by omega)
        rw [result]
        exact ⟨_, rfl, after⟩
  · rw [if_neg small]
    cases answer : newPages (getOrder size) with
    | none => exact ⟨s, rfl, inv⟩
    | some frame =>
      exact ⟨_, rfl, inv.kmalloc_pages frame zero (unused _ frame answer) (least size).1⟩

theorem kfree_preserves {s : KState} {ptr : Nat} (inv : KInv min s.heap s.live)
    (allowed : (KCall.kfree ptr).Allowed min s) :
    ∃ t, kCall min getOrder s (.kfree ptr) = .ok t ∧ KInv min t.heap t.live := by
  simp only [kCall]
  by_cases none' : ptr ≤ zeroSizePtr
  · have absent : s.live.eraseP (fun o => o.ptr = ptr) = s.live := by
      refine List.eraseP_of_forall_not fun o member same => ?_
      have above : zeroSizePtr < o.ptr := by
        cases memory : o.obtained with
        | block b => exact (inv.block_lookup member memory).1
        | pages first order => exact (inv.pages_lookup member memory).1
      simp only [decide_eq_true_eq] at same
      omega
    rw [kfree, kfreeCall, if_pos none', absent]
    exact ⟨s, rfl, inv⟩
  · have exists' : ∃ o ∈ s.live, o.ptr = ptr := by
      rcases allowed with rfl | rfl | object
      · exact absurd (Nat.zero_le _) none'
      · exact absurd le_rfl none'
      · exact object
    obtain ⟨o, member, same⟩ := exists'
    obtain ⟨o, before, after, -, same, split, erased⟩ :=
      List.exists_of_eraseP (p := fun o => o.ptr = ptr) member (by simpa using same)
    have same : o.ptr = ptr := by simpa using same
    subst same
    rw [erased]
    have listed : o ∈ s.live := by simp [split]
    have moved : KInv min s.heap (o :: (before ++ after)) := inv.perm (split ▸ List.perm_middle)
    rw [kfree, inv.kfreeCall_eq listed]
    cases memory : o.obtained with
    | block b =>
      obtain ⟨heap, result, after⟩ := moved.kfree_block memory
      simp only [Object.release, memory, result]
      exact ⟨_, rfl, after⟩
    | pages first order =>
      simp only [Object.release, memory]
      exact ⟨_, rfl, moved.kfree_pages memory⟩

/-- Every call that may be made returns and keeps the invariant. -/
theorem kCall_preserves {s : KState} {call : KCall a} (least : LeastOrder a getOrder)
    (inv : KInv min s.heap s.live) (allowed : call.Allowed min s) :
    ∃ t, kCall min getOrder s call = .ok t ∧ KInv min t.heap t.live := by
  cases call with
  | kmalloc size zero newPages => exact kmalloc_preserves least inv allowed
  | kfree ptr => exact kfree_preserves inv allowed
  | write unit value => exact ⟨_, rfl, inv.write allowed⟩

theorem kRun_invariant {s t : KState} {calls : List (KCall a)} (least : LeastOrder a getOrder)
    (run : Run (KStep min getOrder) s calls t) (start : KInv min s.heap s.live) : KInv min t.heap t.live := by
  refine run.invariant (fun s => KInv min s.heap s.live) ?_ start
  rintro s call t inv ⟨allowed, result⟩
  obtain ⟨t', result', after⟩ := kCall_preserves least inv allowed
  rw [result] at result'
  cases result'
  exact after

theorem KState.Initial.inv {s : KState} (init : s.Initial) : KInv min s.heap s.live := by
  obtain ⟨heap, _, live⟩ := init
  rw [live]
  exact ⟨heap.inv, by simp, .nil⟩

/-! ## Agreement -/

/-- After any history `ksize` of a live pointer is at least the size asked for, and the bytes it
promises are inside the memory obtained for the pointer and apart from the bytes and headers of
all others. `kfree` calls `slob_free` with the block and the size of `slob_alloc`, or gives
back the pages, as the pointer was made. No call faults. -/
theorem kmalloc_ksize_kfree_agree (a : Arch) (min : MinAlign a) (getOrder : Nat → Nat)
    (least : LeastOrder a getOrder) (start s : KState) (calls : List (KCall a)) (init : start.Initial)
    (run : Run (KStep min getOrder) start calls s) :
    (∀ o ∈ s.live, ∃ n, ksize min s.heap o.ptr = .ok n ∧ o.size ≤ n ∧
      (o.obtained.extent a).start ≤ o.ptr ∧ o.ptr + n ≤ (o.obtained.extent a).stop ∧
      (∀ o' ∈ s.live.erase o, ∀ n', ksize min s.heap o'.ptr = .ok n' →
        (⟨o.ptr, n⟩ : Extent).Disjoint ⟨o'.ptr, n'⟩ ∧ (⟨o.ptr, n⟩ : Extent).Disjoint (o'.header min)) ∧
      kfreeCall min s.heap o.ptr = o.release) ∧
    ∀ call : KCall a, call.Allowed min s → ∃ t, kCall min getOrder s call = .ok t := by
  have inv : KInv min s.heap s.live := kRun_invariant least run init.inv
  refine ⟨fun o member => ?_, fun call allowed => ?_⟩
  · have inside := (inv.sound o member).inside
    refine ⟨o.room a, inv.ksize_eq member, o.size_le_room a, ?_, inside.2.2, fun o' other n' size => ?_,
      inv.kfreeCall_eq member⟩
    · simp only [Extent.stop] at inside
      omega
    · have member' := List.mem_of_mem_erase other
      have inside' := (inv.sound o' member').inside
      have apart := inv.disjoint_others member other
      rw [inv.ksize_eq member'] at size
      cases size
      simp only [Extent.Disjoint, Extent.stop, Object.range] at *
      omega
  · obtain ⟨t, result, _⟩ := kCall_preserves least inv allowed
    exact ⟨t, result⟩

/-- The least order as a logarithm. -/
def leastOrder (a : Arch) (size : Nat) : Nat := Nat.clog 2 ((size + a.pageSize - 1) / a.pageSize)

theorem leastOrder_least (a : Arch) : LeastOrder a (leastOrder a) := by
  have page : 0 < a.pageSize := Nat.two_pow_pos _
  have pages (size n : Nat) : (size + a.pageSize - 1) / a.pageSize ≤ n ↔ size ≤ n * a.pageSize := by
    rw [← Nat.lt_succ_iff, Nat.div_lt_iff_lt_mul page, Nat.succ_mul]
    omega
  intro size
  refine ⟨(pages size _).mp (Nat.le_pow_clog (by decide) _), fun order enough => ?_⟩
  exact Nat.clog_le_of_le_pow ((pages size _).mpr enough)

def eightBytes : MinAlign x86 := ⟨8, ⟨3, rfl⟩, by decide, by decide⟩

def noObjects : KState := ⟨⟨Heap.empty, fun _ => 0, fun _ => none⟩, []⟩

theorem noObjects_initial : noObjects.Initial := ⟨initial_empty, fun _ => rfl, rfl⟩

/-- Pages from 2 on for an object of 5000 bytes and page 1 for one of 100 bytes. -/
def largeAndSmall : List (KCall x86) :=
  [.kmalloc 5000 false fun _ => some secondPage,
    .kmalloc 100 false fun order => if order = 0 then some Arch.x86Frame else none]

/-- The state between the two calls. -/
def afterLarge : KState where
  heap.heap := { Heap.empty with mem := newMemory x86 Heap.empty.mem false 2 (leastOrder x86 5000) }
  heap.pagePrivate := Function.update (fun _ => 0) 2 5000
  heap.orders := Function.update (fun _ => none) 2 (some (leastOrder x86 5000))
  live := [⟨2 * x86.pageSize, 5000, .pages 2 (leastOrder x86 5000)⟩]

theorem afterLarge_step :
    KStep eightBytes (leastOrder x86) noObjects (.kmalloc 5000 false fun _ => some secondPage) afterLarge := by
  refine ⟨⟨by decide, fun _ _ _ _ _ _ => ⟨rfl, ?_⟩⟩, ?_⟩
  · rintro _ _ ⟨⟩
  · rw [kCall, kmallocNode, pageSize_sub_align, if_neg (by decide)]
    rfl

theorem afterLarge_unused : afterLarge.heap.Unused 1 := by
  refine ⟨rfl, fun head order record inside => ?_⟩
  have same : head ≠ 2 := by omega
  have none' : afterLarge.heap.orders head = none := Function.update_of_ne same _ fun _ => none
  rw [none'] at record
  cases record

theorem kmalloc_ksize_kfree_agree_large_and_small :
    ∃ s, Run (KStep eightBytes (leastOrder x86)) noObjects largeAndSmall s ∧ s.live.length = 2 ∧
      ∀ o ∈ s.live, ∃ n, ksize eightBytes s.heap o.ptr = .ok n ∧ o.size ≤ n := by
  have least := leastOrder_least x86
  obtain ⟨t, first, inv⟩ := kCall_preserves least noObjects_initial.inv afterLarge_step.1
  obtain rfl : afterLarge = t := Except.ok.inj (afterLarge_step.2.symm.trans first)
  obtain ⟨addr, heap, n, result, _⟩ := inv.kmalloc_block Arch.x86Frame false afterLarge_unused
    (show 0 < 100 by decide) (by decide)
  obtain ⟨heap', o, small⟩ : ∃ heap' o, kCall eightBytes (leastOrder x86) afterLarge
      (.kmalloc 100 false fun order => if order = 0 then some Arch.x86Frame else none) =
        .ok ⟨heap', o :: afterLarge.live⟩ := by
    rw [kCall, kmallocNode, pageSize_sub_align, if_pos (by decide), if_neg (by decide), if_pos rfl, result]
    exact ⟨_, _, rfl⟩
  have allowed : (KCall.kmalloc 100 false fun order => if order = 0 then some Arch.x86Frame else none).Allowed
      eightBytes afterLarge := by
    refine ⟨by decide, fun order frame answer q low high => ?_⟩
    simp only at answer
    split at answer
    next zero =>
      cases answer
      obtain rfl : q = 1 := by
        rw [zero] at high
        exact Nat.le_antisymm (Nat.lt_succ_iff.mp high) low
      exact afterLarge_unused
    next => cases answer
  have run : Run (KStep eightBytes (leastOrder x86)) noObjects largeAndSmall _ :=
    .cons afterLarge_step (.cons ⟨allowed, small⟩ (.nil _))
  refine ⟨_, run, rfl, fun o member => ?_⟩
  obtain ⟨n, size, enough, _⟩ := (kmalloc_ksize_kfree_agree x86 eightBytes (leastOrder x86) least noObjects _
    largeAndSmall noObjects_initial run).1 o member
  exact ⟨n, size, enough⟩

end Cs544.Slob
