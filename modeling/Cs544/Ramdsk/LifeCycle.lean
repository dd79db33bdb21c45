import Mathlib.Logic.Function.Basic
import Mathlib.Tactic.Common

/-! `ramdsk_init` and `ramdsk_exit`, from loading the module to unloading it.

Every device has a data buffer, a request queue and a disk. The module keeps a log of
what it acquires and releases and of the elements of `ramdsk_device` it reads, and the
life cycle is a property of that log. What `kmalloc` leaves in the array is arbitrary,
and so are the elements behind it.
-/

set_option autoImplicit false

namespace Cs544.Ramdsk.LifeCycle

/-- The pointers of a device: `NULL`, what was acquired for device `i`, or anything else. -/
inductive Ptr where
  | null
  | data (i : Nat)
  | queue (i : Nat)
  | disk (i : Nat)
  | wild (address : Nat)
  deriving DecidableEq, Repr

/-- The fields of `struct ramdsk_dev` that own something. -/
structure Device where
  data : Ptr
  queue : Ptr
  gd : Ptr
  deriving DecidableEq, Repr

/-- The calls that release something. `putDisk` drops the reference that `alloc_disk`
returned, `delGendisk` takes back `add_disk`. -/
inductive Call where
  | vfree
  | blkCleanupQueue
  | delGendisk
  | putDisk
  deriving DecidableEq, Repr

/-- `vfree` and `put_disk` ignore `NULL`; the other two go through the pointer. -/
def Call.ignoresNull : Call → Bool
  | vfree | putDisk => true
  | blkCleanupQueue | delGendisk => false

inductive Event where
  -- An element of `ramdsk_device` is read.
  | read (i : Nat)
  -- Something is acquired that `call` is to release.
  | acquire (call : Call) (p : Ptr)
  | release (call : Call) (p : Ptr)
  deriving DecidableEq, Repr

/-- The array, what has been done so far, and whether the kernel has stopped the module
at a `NULL` pointer. -/
structure Module where
  device : Nat → Device
  log : List Event
  oops : Bool

/-- A call that releases what a field of element `i` points to. -/
def Module.release (m : Module) (call : Call) (i : Nat) (field : Device → Ptr) : Module :=
  if m.oops then m
  else
    { m with
      log := m.log ++ [.read i, .release call (field (m.device i))]
      oops := field (m.device i) == .null && !call.ignoresNull }

/-- A call that acquired `p`, which is stored in element `i`. -/
def Module.acquire (m : Module) (call : Call) (i : Nat) (p : Ptr) (store : Device → Device) : Module :=
  { m with device := Function.update m.device i (store (m.device i)), log := m.log ++ [.acquire call p] }

/-- Which of the calls of `ramdsk_device_init` succeed. -/
structure Outcomes where
  vmalloc : Bool
  blkInitQueue : Bool
  allocDisk : Bool
  deriving DecidableEq, Repr

/-- `ramdsk_device_init(ramdsk_device + i, i)`. -/
def ramdskDeviceInit (outcomes : Outcomes) (m : Module) (i : Nat) : Module :=
  if m.oops then m
  else
    let m := { m with device := Function.update m.device i ⟨.null, .null, .null⟩, log := m.log ++ [.read i] }
    if outcomes.vmalloc then
      let m := m.acquire .vfree i (.data i) fun d => { d with data := .data i }
      if outcomes.blkInitQueue then
        let m := m.acquire .blkCleanupQueue i (.queue i) fun d => { d with queue := .queue i }
        if outcomes.allocDisk then
          let m := m.acquire .putDisk i (.disk i) fun d => { d with gd := .disk i }
          -- `add_disk`.
          { m with log := m.log ++ [.acquire .delGendisk (.disk i)] }
        else
          -- `out_queuefree`, which falls through to `out_vfree`.
          let m := m.release .blkCleanupQueue i Device.queue
          let m := m.release .delGendisk (i + 1) Device.gd
          m.release .vfree i Device.data
      else
        m.release .vfree i Device.data
    else m

def ebusy : Int := -16

def enomem : Int := -12

/-- `ramdsk_init`: its error, or the module once all devices have been tried. `major` is
what `register_blkdev` returns and `array` what `kmalloc` does. -/
def ramdskInit (ndevices : Nat) (major : Int) (array : Option (Nat → Device)) (outcomes : Nat → Outcomes) :
    Except Int Module :=
  if major ≤ 0 then .error ebusy
  else
    match array with
    | none => .error enomem
    | some device =>
        .ok ((List.range ndevices).foldl (fun m i => ramdskDeviceInit (outcomes i) m i) ⟨device, [], false⟩)

def exitRound (m : Module) (i : Nat) : Module :=
  let m := m.release .putDisk i Device.gd
  let m := m.release .blkCleanupQueue i Device.queue
  let m := m.release .delGendisk 1 Device.gd
  m.release .vfree i Device.data

/-- `ramdsk_exit`, up to the array itself and the major number. -/
def ramdskExit (ndevices : Nat) (m : Module) : Module := (List.range ndevices).foldl exitRound m

/-- The life cycle in balance. Everything acquired is released exactly once; every release is of
something acquired and not yet released, or ignores `NULL`; a disk is taken out of the
system before its reference is put; and only the `n` elements of the array are read. -/
structure Balanced (n : Nat) (log : List Event) : Prop where
  once : ∀ call p, .acquire call p ∈ log → log.count (.release call p) = 1
  only : ∀ before call p, before ++ [.release call p] <+: log →
    if p = .null then call.ignoresNull = true
    else .acquire call p ∈ before ∧ .release call p ∉ before
  ordered : ∀ before p, before ++ [.release .putDisk p] <+: log → p ≠ .null →
    .release .delGendisk p ∈ before
  inRange : ∀ i, .read i ∈ log → i < n

/-! ## What a release needs -/

variable {n i : Nat} {m : Module} {call : Call} {field : Device → Ptr} {log : List Event} {o : Outcomes}

theorem release_log_grows (m : Module) (call : Call) (i : Nat) (field : Device → Ptr) :
    m.log <+: (m.release call i field).log := by
  unfold Module.release
  split_ifs
  · exact List.prefix_refl _
  · exact List.prefix_append ..

@[simp] theorem release_device : (m.release call i field).device = m.device := by
  unfold Module.release
  split_ifs <;> rfl

/-- If the life cycle is in balance, a release reads an element of the array, and what it
releases was acquired and is released for the first time, or is a `NULL` it ignores. -/
theorem Balanced.release (life : Balanced n log) (running : m.oops = false)
    (kept : (m.release call i field).log <+: log) :
    i < n ∧ (m.release call i field).oops = false ∧
      .release call (field (m.device i)) ∈ (m.release call i field).log ∧
      (call.ignoresNull = false → field (m.device i) ≠ .null) ∧
      (field (m.device i) ≠ .null → .release call (field (m.device i)) ∉ m.log) := by
  have after : m.release call i field = { m with
      log := m.log ++ [.read i, .release call (field (m.device i))]
      oops := field (m.device i) == .null && !call.ignoresNull } := by
    unfold Module.release
    rw [running]
    rfl
  rw [after] at kept ⊢
  have inside := life.inRange i (kept.subset (by simp))
  have only := life.only (m.log ++ [.read i]) call (field (m.device i)) (by simpa using kept)
  split_ifs at only with null
  · refine ⟨inside, ?_, by simp, fun strict => ?_, fun nonnull => absurd null nonnull⟩
    · simp [only]
    · rw [only] at strict
      cases strict
  · refine ⟨inside, ?_, by simp, fun _ => null, fun _ again => only.2 (by simp [again])⟩
    simp [null]

/-! ## Loading the module -/

theorem deviceInit_log_grows (o : Outcomes) (m : Module) (i : Nat) :
    m.log <+: (ramdskDeviceInit o m i).log := by
  unfold ramdskDeviceInit
  split_ifs
  · exact List.prefix_refl _
  · simp [Module.acquire]
  · refine List.IsPrefix.trans ?_ (release_log_grows _ _ _ _)
    refine List.IsPrefix.trans ?_ (release_log_grows _ _ _ _)
    refine List.IsPrefix.trans ?_ (release_log_grows _ _ _ _)
    simp [Module.acquire]
  · refine List.IsPrefix.trans ?_ (release_log_grows _ _ _ _)
    simp [Module.acquire]
  · simp

/-- In balance, no release on the way stops the module. -/
theorem Balanced.deviceInit (life : Balanced n log) (running : m.oops = false)
    (kept : (ramdskDeviceInit o m i).log <+: log) : (ramdskDeviceInit o m i).oops = false := by
  unfold ramdskDeviceInit at kept ⊢
  rw [running] at kept ⊢
  simp only [Bool.false_eq_true, if_false] at kept ⊢
  split_ifs at kept ⊢
  · rfl
  · -- The three releases of `out_queuefree`, each within the whole log.
    have kept₂ := (release_log_grows _ _ _ _).trans kept
    have kept₁ := (release_log_grows _ _ _ _).trans kept₂
    obtain ⟨_, running₁, _⟩ := life.release rfl kept₁
    obtain ⟨_, running₂, _⟩ := life.release running₁ kept₂
    obtain ⟨_, running₃, _⟩ := life.release running₂ kept
    exact running₃
  · obtain ⟨_, running₁, _⟩ := life.release rfl kept
    exact running₁
  · rfl

theorem foldl_log_grows {step : Module → Nat → Module} (grows : ∀ m i, m.log <+: (step m i).log)
    (l : List Nat) (m : Module) : m.log <+: (l.foldl step m).log := by
  induction l generalizing m with
  | nil => exact List.prefix_refl _
  | cons i rest ih => exact (grows m i).trans (ih (step m i))

/-- All devices, by induction on those still to be tried. -/
theorem Balanced.devicesInit (life : Balanced n log) (outcomes : Nat → Outcomes) (l : List Nat)
    (running : m.oops = false)
    (kept : (l.foldl (fun m i => ramdskDeviceInit (outcomes i) m i) m).log <+: log) :
    (l.foldl (fun m i => ramdskDeviceInit (outcomes i) m i) m).oops = false := by
  induction l generalizing m with
  | nil => exact running
  | cons i rest ih =>
    have first := (foldl_log_grows (fun m i => deviceInit_log_grows (outcomes i) m i) rest _).trans kept
    exact ih (life.deviceInit running first) kept

/-! ## Unloading it -/

theorem exitRound_log_grows (m : Module) (i : Nat) : m.log <+: (exitRound m i).log :=
  (((release_log_grows _ _ _ _).trans (release_log_grows _ _ _ _)).trans
    (release_log_grows _ _ _ _)).trans (release_log_grows _ _ _ _)

/-- A round of the loop reads the second element and takes out the disk there. In
balance, there is such an element and its disk has not been taken out before. -/
theorem Balanced.exitRound (life : Balanced n log) (running : m.oops = false)
    (kept : (exitRound m i).log <+: log) :
    (LifeCycle.exitRound m i).oops = false ∧ (LifeCycle.exitRound m i).device = m.device ∧ 1 < n ∧
      .release .delGendisk (m.device 1).gd ∉ m.log ∧
      .release .delGendisk (m.device 1).gd ∈ (LifeCycle.exitRound m i).log := by
  unfold LifeCycle.exitRound at kept ⊢
  set m₁ := m.release .putDisk i Device.gd
  set m₂ := m₁.release .blkCleanupQueue i Device.queue
  set m₃ := m₂.release .delGendisk 1 Device.gd
  have kept₃ : m₃.log <+: log := (release_log_grows _ _ _ _).trans kept
  have kept₂ : m₂.log <+: log := (release_log_grows _ _ _ _).trans kept₃
  have kept₁ : m₁.log <+: log := (release_log_grows _ _ _ _).trans kept₂
  have device₂ : m₂.device = m.device := release_device.trans release_device
  have device₃ : m₃.device = m.device := release_device.trans device₂
  obtain ⟨_, running₁, _⟩ := life.release running kept₁
  obtain ⟨_, running₂, _⟩ := life.release running₁ kept₂
  obtain ⟨second, running₃, removed, strict, registered⟩ := life.release running₂ kept₃
  obtain ⟨_, running₄, _⟩ := life.release running₃ kept
  rw [device₂] at removed strict registered
  refine ⟨running₄, release_device.trans device₃, second, fun early => ?_, ?_⟩
  · apply registered (strict rfl)
    exact ((release_log_grows _ _ _ _).trans (release_log_grows _ _ _ _)).subset early
  · exact (release_log_grows _ _ _ _).subset removed

/-- The life cycle is never in balance, whatever the number of devices, the outcome of
their calls and the contents of the fresh array. The second round takes out the disk of
the second device again, if a release before it has not already failed: one device has
no second element, and a device that was not set up has no queue to clean up. -/
theorem ramdsk_life_cycle_unbalanced (ndevices : Nat) (some' : 1 ≤ ndevices) (major : Int)
    (array : Option (Nat → Device)) (outcomes : Nat → Outcomes) (m : Module)
    (loaded : ramdskInit ndevices major array outcomes = .ok m) :
    ¬ Balanced ndevices (ramdskExit ndevices m).log := by
  intro life
  have running : m.oops = false := by
    have kept : m.log <+: (ramdskExit ndevices m).log := foldl_log_grows exitRound_log_grows _ _
    unfold ramdskInit at loaded
    split_ifs at loaded
    cases array with
    | none => cases loaded
    | some device =>
      obtain rfl := Except.ok.inj loaded
      exact life.devicesInit outcomes _ rfl kept
  obtain ⟨k, rfl⟩ : ∃ k, ndevices = k + 1 := ⟨ndevices - 1, by omega⟩
  have rounds : (ramdskExit (k + 1) m).log = ((List.range' 1 k).foldl exitRound (exitRound m 0)).log := by
    rw [ramdskExit, List.range_eq_range', List.range'_succ]
    rfl
  rw [rounds] at life
  obtain ⟨running, device, second, _, removed⟩ :=
    life.exitRound running (foldl_log_grows exitRound_log_grows _ _)
  obtain ⟨j, rfl⟩ : ∃ j, k = j + 1 := ⟨k - 1, by omega⟩
  rw [List.range'_succ, List.foldl_cons] at life
  obtain ⟨_, _, _, again, _⟩ := life.exitRound running (foldl_log_grows exitRound_log_grows _ _)
  rw [device] at again
  exact again removed

/-- Two devices, all of whose calls succeed. -/
theorem ramdsk_life_cycle_unbalanced_two_devices :
    ∃ m, ramdskInit 2 240 (some fun _ => ⟨.null, .null, .null⟩) (fun _ => ⟨true, true, true⟩) = .ok m ∧
      .acquire .delGendisk (.disk 1) ∈ m.log ∧ ¬ Balanced 2 (ramdskExit 2 m).log := by
  refine ⟨_, rfl, by decide, ?_⟩
  exact ramdsk_life_cycle_unbalanced 2 (by decide) 240 (some fun _ => ⟨.null, .null, .null⟩)
    (fun _ => ⟨true, true, true⟩) _ rfl

/-- The default of one device, all of whose calls succeed: unloading the module reads
behind the array. -/
theorem ramdsk_exit_reads_behind_array :
    ∃ m, ramdskInit 1 240 (some fun _ => ⟨.null, .null, .null⟩) (fun _ => ⟨true, true, true⟩) = .ok m ∧
      ¬ Balanced 1 (ramdskExit 1 m).log := by
  refine ⟨_, rfl, fun life => ?_⟩
  have behind := life.inRange 1 (by decide)
  exact Nat.lt_irrefl 1 behind

end Cs544.Ramdsk.LifeCycle
