import Cs544.Slob.HeapInvariant

/-! `__kmalloc_node`, `kfree` and `ksize` on top of the SLOB allocator.

Small objects are blocks of `slob_alloc` with their size in a header in front of them, large
ones are whole pages with their size in `page->private`. Which of the two an object is, is
read off a flag of its page. Pointers to objects are byte addresses.
-/

set_option autoImplicit false

namespace Cs544.Slob

open Cs544.Library

/-- `max(ARCH_KMALLOC_MINALIGN, ARCH_SLAB_MINALIGN)`, an alignment inside a page. -/
structure MinAlign (a : Arch) where
  align : Nat
  power : ∃ k, align = 2 ^ k
  align_ge : 4 ≤ align
  align_le : align ≤ a.pageSize

/-- What the front end works on. `orders` is the page allocator's record of the pages it has
handed out and that are not slob pages, by their first page. -/
structure KHeap where
  heap : Heap
  pagePrivate : Nat → Nat
  orders : Nat → Option Nat

def zeroSizePtr : Nat := 16

section
variable (a : Arch)

/-! ## The header -/

/-- `*m = value` through an `unsigned int *`, on little-endian units. -/
def storeUint (mem : Memory) (m value : Nat) : Memory :=
  if a.slobUnit = 2 then
    Function.update (Function.update mem m (slobidx a (value % 2 ^ 16 : Nat))) (m + 1)
      (slobidx a (value / 2 ^ 16 % 2 ^ 16 : Nat))
  else Function.update mem m (slobidx a (value % 2 ^ 32 : Nat))

def loadUint (mem : Memory) (m : Nat) : Nat :=
  if a.slobUnit = 2 then (mem m % 2 ^ 16).toNat + 2 ^ 16 * (mem (m + 1) % 2 ^ 16).toNat
  else (mem m % 2 ^ 32).toNat

/-- The units an `unsigned int` takes. -/
def uintUnits : Nat := 4 / a.slobUnit

end

variable {a : Arch} (min : MinAlign a)

/-! ## __kmalloc_node, kfree and ksize -/

/-- The memory an object was made from. -/
inductive Obtained where
  | block (block : LiveBlock)
  | pages (first order : Nat)
  deriving DecidableEq, Repr

structure Kmalloc where
  ret : Option Nat
  heap : KHeap
  obtained : Option Obtained

/-- Pages of the page allocator, cleared on `__GFP_ZERO`. -/
def newMemory (a : Arch) (mem : Memory) (zero : Bool) (first order : Nat) : Memory := fun x =>
  if zero ∧ first ≤ a.pageOf x ∧ a.pageOf x < first + 2 ^ order then 0 else mem x

/-- `__kmalloc_node(size, gfp, -1)`; `zero` is `gfp & __GFP_ZERO` and `newPages` what
`slob_new_pages` returns for each order. -/
def kmallocNode (getOrder : Nat → Nat) (k : KHeap) (size : Nat) (zero : Bool) (newPages : Nat → Option a.Frame) :
    Except Fault Kmalloc :=
  if size < (a.pageSize + 2 ^ a.longBits - min.align) % 2 ^ a.longBits then
    if size = 0 then .ok ⟨some zeroSizePtr, k, none⟩
    else
      match slobAlloc k.heap (size + min.align) zero min.align (newPages 0) with
      | .error fault => .error fault
      | .ok ⟨none, heap, _⟩ => .ok ⟨none, { k with heap }, none⟩
      | .ok ⟨some m, heap, _⟩ =>
          let heap := { heap with mem := storeUint a heap.mem m size }
          .ok ⟨some (a.slobUnit * m + min.align), { k with heap }, some (.block ⟨m, size + min.align⟩)⟩
  else
    let order := getOrder size
    match newPages order with
    | none => .ok ⟨none, k, none⟩
    | some frame =>
        .ok ⟨some (frame.number * a.pageSize),
          { heap := { k.heap with mem := newMemory a k.heap.mem zero frame.number order }
            pagePrivate := Function.update k.pagePrivate frame.number size
            orders := Function.update k.orders frame.number (some order) },
          some (.pages frame.number order)⟩

/-- What `kfree` calls. -/
inductive Release where
  | nothing
  | slobFree (block size : Nat)
  | putPage (page : Nat)
  deriving DecidableEq, Repr

/-- The page a byte address lies in (`virt_to_page`). -/
def pageOfByte (a : Arch) (addr : Nat) : Nat := addr / a.pageSize

/-- `(unsigned int *)(block - align)`, as a number of units. -/
def headerOf (block : Nat) : Nat := (block - min.align) / a.slobUnit

def kfreeCall (k : KHeap) (block : Nat) : Release :=
  -- ZERO_OR_NULL_PTR(block)
  if block ≤ zeroSizePtr then .nothing
  else if (k.heap.page (pageOfByte a block)).slab then
    .slobFree (headerOf min block) ((loadUint a k.heap.mem (headerOf min block) + min.align) % 2 ^ 32)
  else .putPage (pageOfByte a block)

/-- `kfree(block)`. The last `put_page` gives back all pages that were handed out together. -/
def kfree (k : KHeap) (block : Nat) : Except Fault KHeap :=
  match kfreeCall min k block with
  | .nothing => .ok k
  | .slobFree m size =>
      match slobFree a k.heap m size with
      | .error fault => .error fault
      | .ok heap => .ok { k with heap }
  | .putPage page => .ok { k with orders := Function.update k.orders page none }

def ksize (k : KHeap) (block : Nat) : Except Fault Nat :=
  -- BUG_ON(!block)
  if block = 0 then .error .bug
  else if block = zeroSizePtr then .ok 0
  else if (k.heap.page (pageOfByte a block)).slab then
    .ok (a.slobUnitsOf (loadUint a k.heap.mem (headerOf min block)) * a.slobUnit)
  else .ok (k.pagePrivate (pageOfByte a block))

/-! ## Layout -/

section
variable {mem mem' : Memory} {m value x : Nat}

theorem slobUnit_cases (a : Arch) : a.slobUnit = 2 ∧ a.indexBits = 16 ∨ a.slobUnit = 4 ∧ a.indexBits = 32 := by
  unfold Arch.slobUnit Arch.indexBits
  split
  · exact .inl ⟨rfl, rfl⟩
  · exact .inr ⟨rfl, rfl⟩

theorem storeUint_of_not_contains (outside : ¬ (⟨m, uintUnits a⟩ : Extent).Contains x) :
    storeUint a mem m value x = mem x := by
  unfold storeUint
  rcases slobUnit_cases a with ⟨unit, _⟩ | ⟨unit, _⟩
  · simp only [Extent.Contains, uintUnits, unit] at outside
    rw [if_pos unit, Function.update_of_ne (by omega), Function.update_of_ne (by omega)]
  · simp only [Extent.Contains, uintUnits, unit] at outside
    rw [if_neg (by omega), Function.update_of_ne (by omega)]

theorem loadUint_congr (same : ∀ x, (⟨m, uintUnits a⟩ : Extent).Contains x → mem' x = mem x) :
    loadUint a mem' m = loadUint a mem m := by
  unfold loadUint
  rcases slobUnit_cases a with ⟨unit, _⟩ | ⟨unit, _⟩
  · simp only [Extent.Contains, uintUnits, unit] at same
    rw [if_pos unit, if_pos unit, same m (by omega), same (m + 1) (by omega)]
  · simp only [Extent.Contains, uintUnits, unit] at same
    rw [if_neg (by omega), if_neg (by omega), same m (by omega)]

theorem toNat_bmod_two_pow (x w : Nat) : (Int.bmod x (2 ^ w) % 2 ^ w).toNat = x % 2 ^ w := by
  have cast : ((2 ^ w : Nat) : Int) = 2 ^ w := by push_cast; rfl
  rw [← cast, Int.bmod_emod, ← Int.natCast_emod, Int.toNat_natCast]

/-- The header reads back as the `unsigned int` it was written as. -/
theorem loadUint_storeUint (small : value < 2 ^ 32) : loadUint a (storeUint a mem m value) m = value := by
  unfold loadUint storeUint slobidx
  rcases slobUnit_cases a with ⟨unit, bits⟩ | ⟨unit, bits⟩
  · have parts (n : Nat) (bound : n < 65536 * 65536) :
        n % 65536 % 65536 + 65536 * (n / 65536 % 65536 % 65536) = n := by omega
    simp only [if_pos unit, bits]
    rw [Function.update_self, Function.update_of_ne (by omega), Function.update_self, toNat_bmod_two_pow,
      toNat_bmod_two_pow]
    exact parts value small
  · have long : ¬ a.slobUnit = 2 := by omega
    simp only [if_neg long, bits]
    rw [Function.update_self, toNat_bmod_two_pow, Nat.mod_mod, Nat.mod_eq_of_lt small]

end

namespace MinAlign

def units : Nat := min.align / a.slobUnit

theorem slobUnit_mul_units : a.slobUnit * min.units = min.align := by
  refine Nat.mul_div_cancel' ?_
  obtain ⟨k, power⟩ := min.power
  have large := min.align_ge
  rw [power] at large ⊢
  have exponent : 2 ≤ k := (Nat.pow_le_pow_iff_right (a := 2) (by decide)).mp large
  rcases slobUnit_cases a with ⟨unit, _⟩ | ⟨unit, _⟩
  · rw [unit]
    exact Nat.pow_dvd_pow 2 (show 1 ≤ k by omega)
  · rw [unit]
    exact Nat.pow_dvd_pow 2 exponent

theorem uintUnits_le : uintUnits a ≤ min.units := Nat.div_le_div_right min.align_ge

/-- The alignment is whole units, so rounding up the sum rounds up the size. -/
theorem slobUnitsOf_add (n : Nat) : a.slobUnitsOf (n + min.align) = min.units + a.slobUnitsOf n := by
  have unit := a.slobUnit_pos
  have sum : n + min.align + a.slobUnit - 1 = n + a.slobUnit - 1 + a.slobUnit * min.units := by
    rw [slobUnit_mul_units]
    omega
  rw [Arch.slobUnitsOf, sum, Nat.add_mul_div_left _ _ unit, Nat.add_comm]
  rfl

end MinAlign

theorem pageOfByte_mul (a : Arch) (x : Nat) : pageOfByte a (a.slobUnit * x) = a.pageOf x := by
  rw [pageOfByte, ← a.slobUnit_mul_pageUnits, Nat.mul_div_mul_left _ _ a.slobUnit_pos]
  rfl

/-! ## Objects -/

/-- A pointer `__kmalloc_node` has returned and that is not freed yet. -/
structure Object where
  ptr : Nat
  size : Nat
  obtained : Obtained
  deriving DecidableEq, Repr

/-- The bytes obtained. -/
def Obtained.extent (a : Arch) : Obtained → Extent
  | .block b => ⟨a.slobUnit * b.addr, a.slobUnit * a.slobUnitsOf b.size⟩
  | .pages first order => ⟨first * a.pageSize, 2 ^ order * a.pageSize⟩

def Object.block (o : Object) : Option LiveBlock :=
  match o.obtained with
  | .block b => some b
  | .pages _ _ => none

/-- The bytes in front of a small object; a large one has no header. -/
def Object.header (o : Object) : Extent :=
  match o.obtained with
  | .block b => ⟨a.slobUnit * b.addr, min.align⟩
  | .pages _ _ => ⟨o.ptr, 0⟩

/-- The bytes of the object: its size, in whole units when it is a block. -/
def Object.room (a : Arch) (o : Object) : Nat :=
  match o.obtained with
  | .block _ => a.slobUnitsOf o.size * a.slobUnit
  | .pages _ _ => o.size

def Object.range (a : Arch) (o : Object) : Extent := ⟨o.ptr, o.room a⟩

/-- What `kfree` has to call for an object. -/
def Object.release (o : Object) : Release :=
  match o.obtained with
  | .block b => .slobFree b.addr b.size
  | .pages first _ => .putPage first

/-- A small object: behind a header that holds its size. -/
structure BlockSound (k : KHeap) (o : Object) (b : LiveBlock) : Prop where
  ptr : o.ptr = a.slobUnit * b.addr + min.align
  size : b.size = o.size + min.align
  positive : 0 < o.size
  small : b.size < a.pageSize
  stored : loadUint a k.heap.mem b.addr = o.size

/-- A large object: at the start of pages whose first one holds its size. -/
structure PagesSound (a : Arch) (k : KHeap) (o : Object) (first order : Nat) : Prop where
  ptr : o.ptr = first * a.pageSize
  nonnull : 0 < first
  enough : o.size ≤ 2 ^ order * a.pageSize
  record : k.orders first = some order
  stored : k.pagePrivate first = o.size
  flags : ∀ q, first ≤ q → q < first + 2 ^ order → (k.heap.page q).slab = false

def Object.Sound (k : KHeap) (o : Object) : Prop :=
  match o.obtained with
  | .block b => BlockSound min k o b
  | .pages first order => PagesSound a k o first order

/-- Pages that were handed out together are handed out once. -/
def PagesApart (o o' : Object) : Prop :=
  ∀ first order first' order', o.obtained = .pages first order → o'.obtained = .pages first' order' →
    first + 2 ^ order ≤ first' ∨ first' + 2 ^ order' ≤ first

structure KInv (k : KHeap) (live : List Object) : Prop where
  heap : HeapInv a k.heap (live.filterMap Object.block)
  sound : ∀ o ∈ live, o.Sound min k
  apart : live.Pairwise PagesApart

variable {min} {k k' : KHeap} {live live' : List Object} {o : Object}

theorem Object.size_le_room (a : Arch) (o : Object) : o.size ≤ o.room a := by
  unfold room
  split
  · rw [Nat.mul_comm]
    exact a.le_slobUnit_mul o.size
  · exact le_rfl

theorem Object.Sound.block {b : LiveBlock} (sound : o.Sound min k) (memory : o.obtained = .block b) :
    BlockSound min k o b := by
  simpa only [Object.Sound, memory] using sound

theorem Object.Sound.pages {first order : Nat} (sound : o.Sound min k) (memory : o.obtained = .pages first order) :
    PagesSound a k o first order := by
  simpa only [Object.Sound, memory] using sound

/-- Header and range fill the memory of a block; the range starts the pages. -/
theorem Object.Sound.inside (sound : o.Sound min k) :
    (o.obtained.extent a).start ≤ (o.header min).start ∧ (o.header min).stop ≤ o.ptr ∧
      (o.range a).stop ≤ (o.obtained.extent a).stop := by
  cases memory : o.obtained with
  | block b =>
    obtain ⟨ptr, size, _, _, _⟩ := sound.block memory
    have units := min.slobUnitsOf_add o.size
    have align := min.slobUnit_mul_units
    simp only [Obtained.extent, Object.header, Object.range, Object.room, memory, Extent.stop, ptr, size, units,
      Nat.mul_add, align, Nat.mul_comm (a.slobUnitsOf o.size)]
    omega
  | pages first order =>
    obtain ⟨ptr, _, size, _⟩ := sound.pages memory
    simp only [Obtained.extent, Object.header, Object.range, Object.room, memory, Extent.stop, ptr]
    omega

namespace KInv

theorem mem_blocks {b : LiveBlock} (member : o ∈ live) (memory : o.obtained = .block b) :
    b ∈ live.filterMap Object.block :=
  List.mem_filterMap.mpr ⟨o, member, by simp only [Object.block, memory]⟩

/-- Pages in use start above `ZERO_SIZE_PTR`. -/
theorem zeroSizePtr_lt {p : Nat} (nonnull : 0 < p) : zeroSizePtr < p * a.pageSize := by
  have page := a.pageSize_ge
  have := Nat.mul_le_mul_right a.pageSize (show 1 ≤ p from nonnull)
  unfold zeroSizePtr
  omega

/-- A small object is found through its page and its header. -/
theorem block_lookup {b : LiveBlock} (inv : KInv min k live) (member : o ∈ live) (memory : o.obtained = .block b) :
    zeroSizePtr < o.ptr ∧ (k.heap.page (pageOfByte a o.ptr)).slab = true ∧ headerOf min o.ptr = b.addr := by
  obtain ⟨ptr, size, positive, _, _⟩ := (inv.sound o member).block memory
  have used := mem_blocks member memory
  have slab := inv.heap.owned b used
  have align := min.slobUnit_mul_units
  obtain ⟨low, _, _⟩ := inv.heap.block_bounds used
  refine ⟨?_, ?_, ?_⟩
  · have start := Nat.mul_le_mul_left a.slobUnit low
    have page := zeroSizePtr_lt (a := a) (inv.heap.pages _ slab).nonnull
    rw [Arch.pageStart, Nat.mul_left_comm, a.slobUnit_mul_pageUnits] at start
    omega
  · have inside : (b.extent a).Contains (b.addr + min.units) := by
      have some' := Arch.slobUnitsOf_pos (a := a) positive
      simp only [LiveBlock.extent, Extent.Contains, size, MinAlign.slobUnitsOf_add]
      omega
    rw [ptr, ← align, ← Nat.mul_add, pageOfByte_mul, inv.heap.pageOf_unit used inside]
    exact slab
  · rw [headerOf, ptr, Nat.add_sub_cancel, Nat.mul_div_cancel_left _ a.slobUnit_pos]

theorem pages_lookup {first order : Nat} (inv : KInv min k live) (member : o ∈ live)
    (memory : o.obtained = .pages first order) :
    zeroSizePtr < o.ptr ∧ (k.heap.page (pageOfByte a o.ptr)).slab = false ∧ pageOfByte a o.ptr = first := by
  obtain ⟨ptr, nonnull, _, _, _, flags⟩ := (inv.sound o member).pages memory
  have page : pageOfByte a o.ptr = first := by
    rw [pageOfByte, ptr, Nat.mul_div_cancel _ (show 0 < a.pageSize from Nat.two_pow_pos _)]
  refine ⟨?_, ?_, page⟩
  · rw [ptr]
    exact zeroSizePtr_lt nonnull
  · rw [page]
    exact flags first le_rfl (Nat.lt_add_of_pos_right (Nat.two_pow_pos order))

theorem ksize_eq (inv : KInv min k live) (member : o ∈ live) : ksize min k o.ptr = .ok (o.room a) := by
  have sound := inv.sound o member
  cases memory : o.obtained with
  | block b =>
    obtain ⟨above, slab, header⟩ := inv.block_lookup member memory
    have nonnull : o.ptr ≠ 0 := by omega
    rw [ksize, if_neg nonnull, if_neg (Nat.ne_of_gt above), if_pos slab, header, (sound.block memory).stored]
    simp only [Object.room, memory]
  | pages first order =>
    obtain ⟨above, slab, page⟩ := inv.pages_lookup member memory
    have nonnull : o.ptr ≠ 0 := by omega
    rw [ksize, if_neg nonnull, if_neg (Nat.ne_of_gt above), if_neg (by simp [slab]), page,
      (sound.pages memory).stored]
    simp only [Object.room, memory]

theorem kfreeCall_eq (inv : KInv min k live) (member : o ∈ live) : kfreeCall min k o.ptr = o.release := by
  cases memory : o.obtained with
  | block b =>
    obtain ⟨above, slab, header⟩ := inv.block_lookup member memory
    obtain ⟨_, size, _, small, stored⟩ := (inv.sound o member).block memory
    have page : a.pageSize ≤ 2 ^ 30 := Nat.pow_le_pow_right (by decide) a.pageShift_le
    have word : b.size % 2 ^ 32 = b.size := Nat.mod_eq_of_lt (by omega)
    rw [kfreeCall, if_neg (Nat.not_le_of_lt above), if_pos slab, header, stored, ← size, word]
    simp only [Object.release, memory]
  | pages first order =>
    obtain ⟨above, slab, page⟩ := inv.pages_lookup member memory
    rw [kfreeCall, if_neg (Nat.not_le_of_lt above), if_neg (by simp [slab]), page]
    simp only [Object.release, memory]

/-! ## Apart -/

/-- Blocks and pages do not share a page: the flags of their pages differ. -/
theorem block_pages_disjoint {o' : Object} {b : LiveBlock} {first order : Nat} (inv : KInv min k live)
    (member : o ∈ live) (member' : o' ∈ live) (memory : o.obtained = .block b)
    (memory' : o'.obtained = .pages first order) :
    (o.obtained.extent a).Disjoint (o'.obtained.extent a) := by
  have used := mem_blocks member memory
  have slab := inv.heap.owned b used
  obtain ⟨low, _, high⟩ := inv.heap.block_bounds used
  have flags := ((inv.sound o' member').pages memory').flags
  have apart : a.pageOf b.addr < first ∨ first + 2 ^ order ≤ a.pageOf b.addr := by
    by_contra inside
    rw [flags (a.pageOf b.addr) (by omega) (by omega)] at slab
    cases slab
  have start := Nat.mul_le_mul_left a.slobUnit low
  have stop := Nat.mul_le_mul_left a.slobUnit high
  have page := a.slobUnit_mul_pageUnits
  rw [Arch.pageStart, Nat.mul_left_comm, page] at start
  rw [Arch.pageEnd, Nat.mul_add, Nat.mul_add, Nat.mul_left_comm, page] at stop
  simp only [Obtained.extent, memory, memory', Extent.Disjoint, Extent.stop]
  rcases apart with before | behind
  · have := Nat.mul_le_mul_right a.pageSize (Nat.succ_le_of_lt before)
    rw [Nat.succ_mul] at this
    omega
  · have := Nat.mul_le_mul_right a.pageSize behind
    rw [Nat.add_mul] at this
    omega

theorem extents_apart (inv : KInv min k live) :
    live.Pairwise fun o o' => (o.obtained.extent a).Disjoint (o'.obtained.extent a) := by
  have blocks := List.pairwise_filterMap.mp inv.heap.pairwise
  refine (blocks.and inv.apart).imp_of_mem fun {o o'} member member' both => ?_
  obtain ⟨blocks, pages⟩ := both
  cases memory : o.obtained with
  | block b =>
    cases memory' : o'.obtained with
    | block b' =>
      have apart := blocks b (by simp [Object.block, memory]) b' (by simp [Object.block, memory'])
      simp only [Extent.Disjoint, Extent.stop, LiveBlock.extent, Obtained.extent, ← Nat.mul_add] at apart ⊢
      exact apart.imp (Nat.mul_le_mul_left _) (Nat.mul_le_mul_left _)
    | pages first order =>
      rw [← memory, ← memory']
      exact inv.block_pages_disjoint member member' memory memory'
  | pages first order =>
    cases memory' : o'.obtained with
    | block b' =>
      rw [← memory, ← memory']
      exact (inv.block_pages_disjoint member' member memory' memory).symm
    | pages first' order' =>
      have apart := pages first order first' order' memory memory'
      simp only [Extent.Disjoint, Extent.stop, Obtained.extent, ← Nat.add_mul]
      exact apart.imp (Nat.mul_le_mul_right _) (Nat.mul_le_mul_right _)

end KInv

end Cs544.Slob
