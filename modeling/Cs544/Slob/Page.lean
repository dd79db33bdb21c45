import Cs544.Slob.Layout

/-! The heap of the SLOB allocator and its operations on one page.

The heap is explicit state: the `slob_t` units, the `struct slob_page` of every
page and the eleven lists of partially free pages. A loop that never ends and a
`BUG_ON` that fires are faults of the model, never silent defaults.
-/

set_option autoImplicit false

namespace Cs544.Slob

/-- How a call can fail to return. -/
inductive Fault where
  | diverges
  | bug
  deriving DecidableEq, Repr

/-- The lists `free_slob_reallydamnsmall` to `free_slob_giga`. -/
inductive SizeClass where
  | reallydamnsmall | femto | pico | nano | micro | small | smedium | medium | large | mega | giga
  deriving DecidableEq, Repr

/-- The chain over `SLOB_BREAK0` to `SLOB_BREAK9` of `slob_alloc`, repeated
word for word in `slob_free`. -/
def slobList (size : Nat) : SizeClass :=
  if size < 4 then .reallydamnsmall
  else if size < 8 then .femto
  else if size < 16 then .pico
  else if size < 32 then .nano
  else if size < 64 then .micro
  else if size < 128 then .small
  else if size < 256 then .smedium
  else if size < 512 then .medium
  else if size < 1024 then .large
  else if size < 2048 then .mega
  else .giga

/-- The fields of `struct slob_page` the allocator uses; `slobFree` and `slab`
are the page flags `PG_slob_free` and `PG_slab`. -/
structure SlobPage where
  units : Int
  free : Nat
  slobFree : Bool
  slab : Bool
  deriving DecidableEq, Repr

structure Heap where
  mem : Memory
  page : Nat → SlobPage
  lists : SizeClass → List Nat

def Heap.empty : Heap := ⟨fun _ => 0, fun _ => ⟨0, 0, false, false⟩, fun _ => []⟩

def Heap.setPage (h : Heap) (sp : Nat) (page : SlobPage) : Heap :=
  { h with page := Function.update h.page sp page }

def setSlobPageFree (h : Heap) (sp : Nat) (list : SizeClass) : Heap :=
  { h.setPage sp { h.page sp with slobFree := true } with
    lists := Function.update h.lists list (sp :: h.lists list) }

/-- `list_del` unlinks the page from whichever list it is on. -/
def clearSlobPageFree (h : Heap) (sp : Nat) : Heap :=
  { h.setPage sp { h.page sp with slobFree := false } with lists := fun c => (h.lists c).erase sp }

def setSlobPage (h : Heap) (sp : Nat) : Heap := h.setPage sp { h.page sp with slab := true }

def clearSlobPage (h : Heap) (sp : Nat) : Heap := h.setPage sp { h.page sp with slab := false }

@[simp] theorem setSlobPageFree_mem (h : Heap) (sp : Nat) (list : SizeClass) :
    (setSlobPageFree h sp list).mem = h.mem := rfl

@[simp] theorem setSlobPageFree_page (h : Heap) (sp : Nat) (list : SizeClass) :
    (setSlobPageFree h sp list).page =
      Function.update h.page sp { h.page sp with slobFree := true } := rfl

@[simp] theorem setSlobPageFree_lists (h : Heap) (sp : Nat) (list : SizeClass) :
    (setSlobPageFree h sp list).lists = Function.update h.lists list (sp :: h.lists list) := rfl

@[simp] theorem clearSlobPageFree_mem (h : Heap) (sp : Nat) : (clearSlobPageFree h sp).mem = h.mem := rfl

@[simp] theorem clearSlobPageFree_page (h : Heap) (sp : Nat) :
    (clearSlobPageFree h sp).page = Function.update h.page sp { h.page sp with slobFree := false } := rfl

@[simp] theorem clearSlobPageFree_lists (h : Heap) (sp : Nat) (c : SizeClass) :
    (clearSlobPageFree h sp).lists c = (h.lists c).erase sp := rfl

variable (a : Arch)

/-- The initialisation of a new page in `slob_alloc`: one free block over all of it. -/
def freshPage (h : Heap) (b : Nat) (list : SizeClass) : Heap :=
  let sp := a.pageOf b
  let h := setSlobPage h sp
  let mem := setSlob a h.mem b a.pageUnits (b + a.pageUnits)
  setSlobPageFree { h.setPage sp { h.page sp with units := a.pageUnits, free := b } with mem } sp list

/-! ## slob_page_alloc -/

/-- `if (prev) set_slob(prev, slob_units(prev), target); else sp->free = target;` -/
def relink (mem : Memory) (free : Nat) (prev : Option Nat) (target : Nat) : Memory × Nat :=
  match prev with
  | some prev => (setSlob a mem prev (slobUnits mem prev) target, free)
  | none => (mem, target)

/-- Fragment the head of a block so that its second part starts at `aligned`. -/
def fragmentHead (mem : Memory) (cur : Nat) (avail : Int) (aligned : Nat) (delta : Int) : Memory :=
  let next := slobNext a mem cur
  setSlob a (setSlob a mem aligned (avail - delta) next) cur delta aligned

/-- Take `units` units off the front of block `cur`: unlink an exact fit, else
fragment it. -/
def unlink (mem : Memory) (free : Nat) (prev : Option Nat) (cur : Nat) (avail : Int) (units : Nat) :
    Memory × Nat :=
  let next := slobNext a mem cur
  if avail = units then relink a mem free prev next
  else
    let linked := relink a mem free prev (cur + units)
    (setSlob a linked.1 (cur + units) (avail - units) next, linked.2)

/-- `sp->units -= units; if (!sp->units) clear_slob_page_free(sp);` -/
def chargePage (h : Heap) (sp : Nat) (mem : Memory) (free : Nat) (units : Nat) : Heap :=
  let left := slobidx a ((h.page sp).units - units)
  let h := { h.setPage sp { h.page sp with free, units := left } with mem }
  if left = 0 then clearSlobPageFree h sp else h

section
variable {a} (h : Heap) (sp : Nat) (mem : Memory) (free units : Nat)

@[simp] theorem chargePage_mem : (chargePage a h sp mem free units).mem = mem := by
  unfold chargePage
  simp only
  split <;> rfl

@[simp] theorem chargePage_page_self : (chargePage a h sp mem free units).page sp =
    { h.page sp with
      free
      units := slobidx a ((h.page sp).units - units)
      slobFree := (h.page sp).slobFree && slobidx a ((h.page sp).units - units) != 0 } := by
  unfold chargePage
  simp only
  split
  next zero => simp [Heap.setPage, zero]
  next left => simp [Heap.setPage, left]

theorem chargePage_page_of_ne {q : Nat} (other : q ≠ sp) :
    (chargePage a h sp mem free units).page q = h.page q := by
  unfold chargePage
  simp only
  split <;> simp [Heap.setPage, other]

theorem chargePage_lists (c : SizeClass) : (chargePage a h sp mem free units).lists c =
    if slobidx a ((h.page sp).units - units) = 0 then (h.lists c).erase sp else h.lists c := by
  unfold chargePage
  simp only
  split <;> rfl

end

/-- The branch of `slob_page_alloc` for a block with room enough. -/
def takeBlock (h : Heap) (sp units : Nat) (prev : Option Nat) (cur : Nat) (avail : Int)
    (aligned : Nat) (delta : Int) : Nat × Heap :=
  if delta ≠ 0 then
    let mem := fragmentHead a h.mem cur avail aligned delta
    let taken := unlink a mem (h.page sp).free (some cur) aligned (slobUnits mem aligned) units
    (aligned, chargePage a h sp taken.1 taken.2 units)
  else
    let taken := unlink a h.mem (h.page sp).free prev cur avail units
    (cur, chargePage a h sp taken.1 taken.2 units)

/-- The padding computed in front of block `cur`; zero when no alignment is asked for. -/
def deltaAt (cur : Nat) (align : Int) : Int := if align ≠ 0 then a.delta cur align else 0

/-- The search loop. `fuel` bounds the blocks visited; a list that does not end
within it never ends. -/
def slobPageAllocLoop (h : Heap) (sp units : Nat) (align : Int) :
    Nat → Option Nat → Nat → Except Fault (Option Nat × Heap)
  | 0, _, _ => .error .diverges
  | fuel + 1, prev, cur =>
      let avail := slobUnits h.mem cur
      if avail ≥ units + deltaAt a cur align then
        let taken := takeBlock a h sp units prev cur avail (a.aligned cur align) (deltaAt a cur align)
        .ok (some taken.1, taken.2)
      else if slobLast a h.mem cur then .ok (none, h)
      else slobPageAllocLoop h sp units align fuel (some cur) (slobNext a h.mem cur)

/-- Allocate a slob block within a given page. A block of a page has at least
one unit, so a well-formed list is left within `pageUnits` rounds. -/
def slobPageAlloc (h : Heap) (sp size : Nat) (align : Int) (bestSlob prevSlob : Option Nat) :
    Except Fault (Option Nat × Heap) :=
  slobPageAllocLoop a h sp (a.slobUnitsOf size) align a.pageUnits prevSlob
    (bestSlob.getD (h.page sp).free)

/-! ## slob_free -/

/-- `while (b > next) { prev = next; next = slob_next(prev); }` -/
def slobFreeLoop (mem : Memory) (b : Nat) : Nat → Nat → Nat → Except Fault (Nat × Nat)
  | 0, _, _ => .error .diverges
  | fuel + 1, prev, next =>
      if b > next then slobFreeLoop mem b fuel next (slobNext a mem next) else .ok (prev, next)

/-- Find the reinsertion point of block `b` in a partially free page and link it
there, merging it with the blocks it touches. -/
def reinsert (mem : Memory) (free b units : Nat) : Except Fault (Memory × Nat) :=
  if b < free then
    if b + units = free then
      .ok (setSlob a mem b (units + slobUnits mem free) (slobNext a mem free), b)
    else .ok (setSlob a mem b units free, b)
  else
    match slobFreeLoop a mem b a.pageUnits free (slobNext a mem free) with
    | .error fault => .error fault
    | .ok (prev, next) =>
        let mem :=
          if ¬ slobLast a mem prev ∧ b + units = next then
            setSlob a mem b (units + slobUnits mem next) (slobNext a mem next)
          else setSlob a mem b units next
        let mem :=
          if prev + slobUnits mem prev = b then
            setSlob a mem prev (slobUnits mem b + slobUnits mem prev) (slobNext a mem b)
          else setSlob a mem prev (slobUnits mem prev) b
        .ok (mem, free)

/-- `slob_free(block, size)`. A page handed back to the page allocator loses its
slab flag; `reset_page_mapcount` and `mapping` are not read by the allocator. -/
def slobFree (h : Heap) (b size : Nat) : Except Fault Heap :=
  -- ZERO_OR_NULL_PTR(block)
  if a.slobUnit * b ≤ 16 then .ok h
  else if size = 0 then .error .bug
  else
    let sp := a.pageOf b
    let units := a.slobUnitsOf size
    if (h.page sp).units + units = a.pageUnits then
      .ok (clearSlobPage (if (h.page sp).slobFree then clearSlobPageFree h sp else h) sp)
    else if ¬ (h.page sp).slobFree then
      let mem := setSlob a h.mem b units (a.pageBase (b + a.pageUnits))
      .ok (setSlobPageFree { h.setPage sp { h.page sp with units := units, free := b } with mem }
        sp (slobList size))
    else
      match reinsert a h.mem (h.page sp).free b units with
      | .error fault => .error fault
      | .ok (mem, free) =>
          .ok { h.setPage sp { h.page sp with units := slobidx a ((h.page sp).units + units), free } with mem }

end Cs544.Slob
