import Cs544.Sched.RtQueue

/-! What the run queues of real-time tasks keep.

The counts, the bitmap and what was announced to the root domain all follow from the lists of
tasks; this is shown for each function on one run queue, and then for those on several.
-/

set_option autoImplicit false

namespace Cs544.Sched

open Cs544.Library

variable {n : Nat} {τ : Type} {task task' : τ → TaskStruct n} {i j : Fin n} {p q : τ} {head : Bool}

namespace RunQueue

/-- The counts and what was announced are those of the lists. -/
structure Counted (task : τ → TaskStruct n) (i : Fin n) (rq : RunQueue τ) : Prop where
  active : rq.active.WellFormed (fun p => (task p).prio) maxRtPrio
  mine : ∀ p ∈ rq.ready, (task p).schedClass = .rt ∧ (task p).cpu = i
  rtNrRunning : rq.rtNrRunning = rq.ready.length
  highestPrioCurr : rq.highestPrioCurr = rq.active.firstBit maxRtPrio
  rtNrTotal : rq.rtNrTotal = rq.ready.length
  rtNrMigratory : rq.rtNrMigratory = rq.ready.countP fun p => (task p).nrCpusAllowed > 1
  overloaded : rq.overloaded = decide (rq.rtNrMigratory ≠ 0 ∧ rq.rtNrTotal > 1)
  rtoMask : rq.rtoMask = (rq.overloaded && rq.online)
  rtoCount : rq.rtoCount = (rq.overloaded && rq.online).toInt
  cpupri : rq.cpupri = if rq.online then some rq.highestPrioCurr else none

/-- Only tasks that wait and may go elsewhere are offered to other CPUs, the most urgent ones
first. -/
structure Sound (task : τ → TaskStruct n) (i : Fin n) (rq : RunQueue τ) : Prop extends Counted task i rq where
  sorted : rq.pushableTasks.Pairwise fun p q => (task p).prio ≤ (task q).prio
  nodup : rq.pushableTasks.Nodup
  eligible : ∀ p ∈ rq.pushableTasks, p ∈ rq.ready ∧ rq.curr ≠ p ∧ (task p).nrCpusAllowed > 1

/-- What the lists and their counts leave alone. -/
structure SameRest (rq next : RunQueue τ) : Prop where
  curr : next.curr = rq.curr
  needResched : next.needResched = rq.needResched
  postSchedule : next.postSchedule = rq.postSchedule
  online : next.online = rq.online

variable {rq next : RunQueue τ}

theorem SameRest.refl (rq : RunQueue τ) : SameRest rq rq := ⟨rfl, rfl, rfl, rfl⟩

/-- Where a task is put among the others: before or behind those of its priority. -/
def place (task : τ → TaskStruct n) (head : Bool) (p : τ) (l : List τ) : List τ :=
  if head then insertBefore (fun p => (task p).prio) p l else insertBehind (fun p => (task p).prio) p l

theorem perm_place {l : List τ} : (place task head p l).Perm (p :: l) := by
  rw [place]
  split_ifs
  · exact perm_insertBefore
  · exact perm_insertBehind

@[simp] theorem mem_place {l : List τ} : q ∈ place task head p l ↔ q = p ∨ q ∈ l := by
  rw [perm_place.mem_iff, List.mem_cons]

theorem Counted.ready_nodup (counted : rq.Counted task i) : rq.ready.Nodup := counted.active.nodup_toList

/-- A run queue that is sound but for its second list gets a sound one. -/
theorem Counted.sound (counted : rq.Counted task i) {pushable : List τ}
    (sorted : pushable.Pairwise fun p q => (task p).prio ≤ (task q).prio) (nodup : pushable.Nodup)
    (eligible : ∀ p ∈ pushable, p ∈ rq.ready ∧ rq.curr ≠ p ∧ (task p).nrCpusAllowed > 1) :
    Sound task i { rq with pushableTasks := pushable } where
  toCounted := { counted with }
  sorted := sorted
  nodup := nodup
  eligible := eligible

/-- Another task runs that is not offered. -/
theorem Counted.switch (counted : rq.Counted task i) (curr : τ) (needResched postSchedule : Bool) {pushable : List τ}
    (sorted : pushable.Pairwise fun p q => (task p).prio ≤ (task q).prio) (nodup : pushable.Nodup)
    (eligible : ∀ p ∈ pushable, p ∈ rq.ready ∧ (task p).nrCpusAllowed > 1) (absent : curr ∉ pushable) :
    Sound task i { rq with pushableTasks := pushable, curr, needResched, postSchedule } where
  toCounted := { counted with }
  sorted := sorted
  nodup := nodup
  eligible p member := ⟨(eligible p member).1, fun (same : curr = p) => absent (by rwa [same]), (eligible p member).2⟩

/-- The order of the lists does not matter for the counts. -/
theorem Counted.permute (counted : rq.Counted task i) {active : BucketQueue τ}
    (formed : active.WellFormed (fun p => (task p).prio) maxRtPrio) (perm : (active.toList maxRtPrio).Perm rq.ready) :
    Counted task i { rq with active } :=
  { counted with
    active := formed
    mine := fun p member => counted.mine p (perm.mem_iff.mp member)
    rtNrRunning := counted.rtNrRunning.trans perm.length_eq.symm
    rtNrTotal := counted.rtNrTotal.trans perm.length_eq.symm
    rtNrMigratory := counted.rtNrMigratory.trans (perm.countP_eq _).symm
    highestPrioCurr := by
      rw [counted.highestPrioCurr]
      refine eq_of_forall_le_iff fun m => ?_
      rw [counted.active.le_firstBit, formed.le_firstBit]
      simp only [perm.mem_iff]
      rfl }

/-- `pick_next_rt_entity` finds the first of all tasks. -/
theorem Counted.pickNextRtEntity (counted : rq.Counted task i) : pickNextRtEntity rq = rq.ready.head? := by
  have least := counted.active.firstBit_le
  rw [RunQueue.pickNextRtEntity, ready]
  by_cases none' : rq.active.firstBit maxRtPrio = maxRtPrio
  · rw [counted.active.firstBit_eq_bound.mp none']
    exact if_pos (Nat.le_of_eq none'.symm)
  · obtain ⟨p, rest, tail, queue, whole, _⟩ := counted.active.head (by omega)
    rw [whole, queue]
    exact if_neg (by omega)

/-- Of the tasks only what the lists go by counts. -/
theorem Counted.congr (counted : rq.Counted task i)
    (same : ∀ p ∈ rq.ready, (task' p).prio = (task p).prio ∧ (task' p).schedClass = (task p).schedClass ∧
      (task' p).cpu = (task p).cpu)
    (migratory : rq.rtNrMigratory = rq.ready.countP fun p => (task' p).nrCpusAllowed > 1) : rq.Counted task' i :=
  { counted with
    active := counted.active.congr fun p member => (same p member).1
    mine := fun p member => by
      rw [(same p member).2.1, (same p member).2.2]
      exact counted.mine p member
    rtNrMigratory := migratory }

theorem Sound.congr (sound : rq.Sound task i)
    (same : ∀ p ∈ rq.ready, (task' p).prio = (task p).prio ∧ (task' p).schedClass = (task p).schedClass ∧
      (task' p).cpu = (task p).cpu ∧ (task' p).nrCpusAllowed = (task p).nrCpusAllowed) : rq.Sound task' i where
  toCounted := by
    refine sound.toCounted.congr (fun p member => ?_) ?_
    · obtain ⟨prio, schedClass, cpu, _⟩ := same p member
      exact ⟨prio, schedClass, cpu⟩
    · rw [sound.rtNrMigratory]
      refine List.countP_congr fun p member => ?_
      rw [(same p member).2.2.2]
  sorted := sound.sorted.imp_of_mem fun first second less => by
    rw [(same _ (sound.eligible _ first).1).1, (same _ (sound.eligible _ second).1).1]
    exact less
  nodup := sound.nodup
  eligible p member := by
    obtain ⟨waits, idle, migratory⟩ := sound.eligible p member
    rw [(same p waits).2.2.2]
    exact ⟨waits, idle, migratory⟩

/-! ## Overload -/

/-- The flag, the bit of the CPU and its share of the count are set from the counts. -/
theorem updateRtMigration_eq (mask : rq.rtoMask = (rq.overloaded && rq.online))
    (count : rq.rtoCount = (rq.overloaded && rq.online).toInt) :
    rq.updateRtMigration = { rq with
      overloaded := decide (rq.rtNrMigratory ≠ 0 ∧ rq.rtNrTotal > 1)
      rtoMask := decide (rq.rtNrMigratory ≠ 0 ∧ rq.rtNrTotal > 1) && rq.online
      rtoCount := (decide (rq.rtNrMigratory ≠ 0 ∧ rq.rtNrTotal > 1) && rq.online).toInt } := by
  obtain ⟨_, _, _, _, migratory, total, overloaded, _, _, _, _, online, rtoMask, rtoCount, _⟩ := rq
  dsimp only at mask count
  subst mask count
  rw [updateRtMigration]
  dsimp only
  by_cases crowded : migratory ≠ 0 ∧ total > 1
  · rw [if_pos crowded, decide_eq_true crowded]
    cases overloaded <;> cases online <;> rfl
  · rw [if_neg crowded, decide_eq_false crowded]
    cases overloaded <;> cases online <;> rfl

/-- The flag is set anew after one task has changed. -/
theorem Counted.recount (counted : rq.Counted task i)
    (same : ∀ p ∈ rq.ready, (task' p).prio = (task p).prio ∧ (task' p).schedClass = (task p).schedClass ∧
      (task' p).cpu = (task p).cpu) {pushable : List τ} {migratory : Nat}
    (count : migratory = rq.ready.countP fun p => (task' p).nrCpusAllowed > 1)
    (sorted : pushable.Pairwise fun p q => (task' p).prio ≤ (task' q).prio) (nodup : pushable.Nodup)
    (eligible : ∀ p ∈ pushable, p ∈ rq.ready ∧ rq.curr ≠ p ∧ (task' p).nrCpusAllowed > 1) :
    ∃ next, updateRtMigration { rq with pushableTasks := pushable, rtNrMigratory := migratory } = next ∧
      next.Sound task' i ∧ next.ready = rq.ready ∧ SameRest rq next := by
  rw [updateRtMigration_eq]
  · refine ⟨_, rfl, ⟨⟨?_, fun p member => ?_, counted.rtNrRunning, counted.highestPrioCurr, counted.rtNrTotal, count,
      rfl, rfl, rfl, counted.cpupri⟩, sorted, nodup, eligible⟩, rfl, rfl, rfl, rfl, rfl⟩
    · exact counted.active.congr fun p member => (same p member).1
    · rw [(same p member).2.1, (same p member).2.2]
      exact counted.mine p member
  · exact counted.rtoMask
  · exact counted.rtoCount

theorem rqOnlineRt_eq (mask : rq.rtoMask = false) (count : rq.rtoCount = 0) :
    rqOnlineRt { rq with online := true } = { rq with
      online := true
      rtoMask := rq.overloaded
      rtoCount := rq.overloaded.toInt
      cpupri := some rq.highestPrioCurr } := by
  obtain ⟨_, _, _, _, _, _, overloaded, _, _, _, _, _, rtoMask, rtoCount, _⟩ := rq
  dsimp only at mask count
  subst mask count
  cases overloaded <;> rfl

theorem rqOfflineRt_eq (on : rq.online = true) (mask : rq.rtoMask = rq.overloaded)
    (count : rq.rtoCount = rq.overloaded.toInt) :
    rq.rqOfflineRt = { rq with rtoMask := false, rtoCount := 0, cpupri := none } := by
  obtain ⟨_, _, _, _, _, _, overloaded, _, _, _, _, online, rtoMask, rtoCount, _⟩ := rq
  dsimp only at on mask count
  subst on mask count
  cases rtoMask <;> rfl

/-- The root domain learns of a CPU that comes online. -/
theorem Sound.rqOnlineRt (sound : rq.Sound task i) (off : rq.online = false) :
    ∃ next, RunQueue.rqOnlineRt { rq with online := true } = next ∧ next.Sound task i ∧ next.ready = rq.ready ∧
      next.curr = rq.curr := by
  have mask := sound.rtoMask
  have count := sound.rtoCount
  rw [off, Bool.and_false] at mask count
  rw [rqOnlineRt_eq mask count]
  exact ⟨_, rfl, { sound with
    rtoMask := (Bool.and_true _).symm, rtoCount := congrArg Bool.toInt (Bool.and_true _).symm, cpupri := rfl }, rfl, rfl⟩

/-- It forgets a CPU that goes offline. -/
theorem Sound.rqOfflineRt (sound : rq.Sound task i) (on : rq.online = true) :
    ∃ next, { rq.rqOfflineRt with online := false } = next ∧ next.Sound task i ∧ next.ready = rq.ready ∧
      next.curr = rq.curr := by
  have mask := sound.rtoMask
  have count := sound.rtoCount
  rw [on, Bool.and_true] at mask count
  rw [rqOfflineRt_eq on mask count]
  exact ⟨_, rfl, { sound with
    rtoMask := (Bool.and_false _).symm, rtoCount := congrArg Bool.toInt (Bool.and_false _).symm, cpupri := rfl }, rfl, rfl⟩

/-! ## Counting -/

section
variable [DecidableEq τ]

theorem incRtPrio_eq (task : τ → TaskStruct n) (i : Fin n) (prio : Nat) (rq : RunQueue τ) :
    ∃ nextPrio, incRtPrio task i prio rq = { rq with
      highestPrioCurr := min prio rq.highestPrioCurr
      highestPrioNext := nextPrio
      cpupri := if rq.online ∧ prio < rq.highestPrioCurr then some prio else rq.cpupri } := by
  rw [incRtPrio]
  by_cases higher : prio < rq.highestPrioCurr
  · rw [if_pos higher, incRtPrioSmp, if_pos higher, Nat.min_eq_left (Nat.le_of_lt higher)]
    refine ⟨rq.highestPrioCurr, ?_⟩
    simp only [higher, and_true]
  · rw [if_neg higher, incRtPrioSmp, if_neg higher, Nat.min_eq_right (Nat.le_of_not_lt higher)]
    simp only [higher, and_false, if_false]
    split_ifs
    · exact ⟨_, rfl⟩
    · exact ⟨_, rfl⟩
    · exact ⟨_, rfl⟩

theorem decRtPrioSmp_eq (task : τ → TaskStruct n) (i : Fin n) (prio prevPrio : Nat) (rq : RunQueue τ) :
    ∃ nextPrio, decRtPrioSmp task i prio prevPrio rq = { rq with
      highestPrioNext := nextPrio
      cpupri := if rq.online ∧ rq.highestPrioCurr ≠ prevPrio then some rq.highestPrioCurr else rq.cpupri } := by
  rw [decRtPrioSmp]
  split_ifs
  · exact ⟨_, rfl⟩
  · exact ⟨_, rfl⟩
  · exact ⟨_, rfl⟩
  · exact ⟨_, rfl⟩

/-- A task that is in the lists is counted. -/
theorem Counted.incRtTasks (counted : rq.Counted task i) {active : BucketQueue τ}
    (formed : active.WellFormed (fun p => (task p).prio) maxRtPrio)
    (perm : (active.toList maxRtPrio).Perm (p :: rq.ready))
    (mine : (task p).schedClass = .rt ∧ (task p).cpu = i) :
    ∃ next, incRtTasks task i p { rq with active } = some next ∧ next.Counted task i ∧ next.active = active ∧
      next.pushableTasks = rq.pushableTasks ∧ SameRest rq next := by
  have below : (task p).prio < maxRtPrio := formed.lt_bound (perm.mem_iff.mpr List.mem_cons_self)
  have least : active.firstBit maxRtPrio = min (task p).prio rq.highestPrioCurr := by
    rw [counted.highestPrioCurr]
    exact counted.active.firstBit_cons formed perm
  obtain ⟨nextPrio, inc⟩ := incRtPrio_eq task i (task p).prio
    { rq with active, rtNrRunning := rq.rtNrRunning + 1 }
  rw [RunQueue.incRtTasks, if_pos below, inc, incRtMigration, updateRtMigration_eq]
  · refine ⟨_, rfl, ⟨formed, fun q member => ?_, ?_, least.symm, ?_, ?_, rfl, rfl, rfl, ?_⟩, rfl, rfl, rfl, rfl, rfl, rfl⟩
    · rcases List.mem_cons.mp (perm.mem_iff.mp member) with rfl | member
      · exact mine
      · exact counted.mine q member
    · rw [ready, perm.length_eq, List.length_cons, counted.rtNrRunning]
    · rw [ready, perm.length_eq, List.length_cons, counted.rtNrTotal]
    · rw [ready, perm.countP_eq, List.countP_cons, counted.rtNrMigratory]
      simp only [decide_eq_true_eq]
      split_ifs <;> rfl
    · dsimp only
      rw [counted.cpupri]
      cases rq.online with
      | false => simp
      | true =>
        by_cases higher : (task p).prio < rq.highestPrioCurr
        · simp [higher, Nat.min_eq_left (Nat.le_of_lt higher)]
        · simp [higher, Nat.min_eq_right (Nat.le_of_not_lt higher)]
  · exact counted.rtoMask
  · exact counted.rtoCount

/-- The highest priority is looked up only if the task had it. -/
theorem Counted.decRtPrio (counted : rq.Counted task i) {active : BucketQueue τ}
    (formed : active.WellFormed (fun p => (task p).prio) maxRtPrio)
    (perm : rq.ready.Perm (p :: active.toList maxRtPrio)) :
    ∃ nextPrio, decRtPrio task i (task p).prio { rq with active, rtNrRunning := rq.rtNrRunning - 1 } =
      some { rq with
        active
        rtNrRunning := rq.rtNrRunning - 1
        highestPrioCurr := active.firstBit maxRtPrio
        highestPrioNext := nextPrio
        cpupri := if rq.online then some (active.firstBit maxRtPrio) else none } := by
  have least : rq.highestPrioCurr = min (task p).prio (active.firstBit maxRtPrio) := by
    rw [counted.highestPrioCurr]
    exact formed.firstBit_cons counted.active perm
  have announced (k : Nat) : (if rq.online ∧ k ≠ rq.highestPrioCurr then some k else rq.cpupri) =
      if rq.online then some k else none := by
    rw [counted.cpupri]
    cases rq.online with
    | false => simp
    | true =>
      by_cases same : k = rq.highestPrioCurr
      · simp [same]
      · simp [same]
  have warn : ¬ (task p).prio < rq.highestPrioCurr := by omega
  rw [RunQueue.decRtPrio]
  dsimp only
  by_cases others : rq.rtNrRunning - 1 ≠ 0
  · rw [if_pos others, if_neg warn]
    by_cases top : (task p).prio = rq.highestPrioCurr
    · obtain ⟨nextPrio, smp⟩ := decRtPrioSmp_eq task i (task p).prio rq.highestPrioCurr
        { rq with active, rtNrRunning := rq.rtNrRunning - 1, highestPrioCurr := active.firstBit maxRtPrio }
      rw [if_pos top, smp, announced]
      exact ⟨nextPrio, rfl⟩
    · obtain ⟨nextPrio, smp⟩ := decRtPrioSmp_eq task i (task p).prio rq.highestPrioCurr
        { rq with active, rtNrRunning := rq.rtNrRunning - 1 }
      have same : rq.highestPrioCurr = active.firstBit maxRtPrio := by omega
      rw [if_neg top, smp, announced, ← same]
      exact ⟨nextPrio, rfl⟩
  · obtain ⟨nextPrio, smp⟩ := decRtPrioSmp_eq task i (task p).prio rq.highestPrioCurr
      { rq with active, rtNrRunning := rq.rtNrRunning - 1, highestPrioCurr := maxRtPrio }
    have last : active.firstBit maxRtPrio = maxRtPrio := by
      refine formed.firstBit_eq_bound.mpr (List.length_eq_zero_iff.mp ?_)
      have count := counted.rtNrRunning
      rw [perm.length_eq, List.length_cons] at count
      omega
    rw [if_neg others, smp, announced, last]
    exact ⟨nextPrio, rfl⟩

/-- A task that has left the lists is not counted any more. -/
theorem Counted.decRtTasks (counted : rq.Counted task i) {active : BucketQueue τ}
    (formed : active.WellFormed (fun p => (task p).prio) maxRtPrio)
    (perm : rq.ready.Perm (p :: active.toList maxRtPrio)) :
    ∃ next, decRtTasks task i p { rq with active } = some next ∧ next.Counted task i ∧ next.active = active ∧
      next.pushableTasks = rq.pushableTasks ∧ SameRest rq next := by
  have member : p ∈ rq.ready := perm.mem_iff.mpr List.mem_cons_self
  have below : (task p).prio < maxRtPrio := counted.active.lt_bound member
  have count : rq.rtNrRunning = (active.toList maxRtPrio).length + 1 := by
    rw [counted.rtNrRunning, perm.length_eq, List.length_cons]
  have some' : rq.rtNrRunning ≠ 0 := by omega
  obtain ⟨nextPrio, dec⟩ := counted.decRtPrio formed perm
  rw [RunQueue.decRtTasks, if_pos ⟨below, some'⟩, dec, Option.map_some, decRtMigration, updateRtMigration_eq]
  · refine ⟨_, rfl, ⟨formed, fun q member => ?_, ?_, rfl, ?_, ?_, rfl, rfl, rfl, rfl⟩, rfl, rfl, rfl, rfl, rfl, rfl⟩
    · exact counted.mine q (perm.mem_iff.mpr (List.mem_cons_of_mem p member))
    · rw [ready, count, Nat.add_sub_cancel]
    · rw [ready, counted.rtNrTotal, perm.length_eq, List.length_cons, Nat.add_sub_cancel]
    · rw [ready, counted.rtNrMigratory, perm.countP_eq, List.countP_cons]
      simp only [decide_eq_true_eq]
      split_ifs
      · rw [Nat.add_sub_cancel]
      · rfl
  · exact counted.rtoMask
  · exact counted.rtoCount

/-! ## Adding and removing -/

theorem mem_ready_iff : onRtRq p rq = true ↔ p ∈ rq.ready := decide_eq_true_iff

theorem Counted.dequeueRtEntity (counted : rq.Counted task i) (p : τ) :
    ∃ next, dequeueRtEntity task i p rq = some next ∧ next.Counted task i ∧ next.ready = rq.ready.erase p ∧
      next.pushableTasks = rq.pushableTasks ∧ SameRest rq next := by
  rw [RunQueue.dequeueRtEntity]
  by_cases member : p ∈ rq.ready
  · obtain ⟨formed, removed⟩ := counted.active.remove (counted.active.lt_bound member)
    have perm : rq.ready.Perm (p :: (rq.active.remove (task p).prio p).toList maxRtPrio) := by
      rw [removed]
      exact List.perm_cons_erase member
    obtain ⟨next, result, counted', active, pushable, rest⟩ := counted.decRtTasks formed perm
    rw [if_pos (mem_ready_iff.mpr member), rawDequeueRtEntity, result]
    refine ⟨next, rfl, counted', ?_, pushable, rest⟩
    rw [ready, active, removed]
    rfl
  · rw [if_neg (mem_ready_iff.not.mpr member)]
    exact ⟨rq, rfl, counted, (List.erase_of_not_mem member).symm, rfl, .refl rq⟩

theorem Counted.enqueueRtEntity (head : Bool) (counted : rq.Counted task i) (absent : p ∉ rq.ready)
    (mine : (task p).schedClass = .rt ∧ (task p).cpu = i) (below : (task p).prio < maxRtPrio) :
    ∃ next, enqueueRtEntity task i p head rq = some next ∧ next.Counted task i ∧
      next.ready = place task head p rq.ready ∧ next.pushableTasks = rq.pushableTasks ∧ SameRest rq next := by
  have added : ∃ active : BucketQueue τ,
      (if head then rq.active.addHead (task p).prio p else rq.active.addTail (task p).prio p) = active ∧
      active.WellFormed (fun p => (task p).prio) maxRtPrio ∧ active.toList maxRtPrio = place task head p rq.ready := by
    cases head with
    | false => exact ⟨_, rfl, counted.active.addTail absent below⟩
    | true => exact ⟨_, rfl, counted.active.addHead absent below⟩
  obtain ⟨active, write, formed, whole⟩ := added
  have perm : (active.toList maxRtPrio).Perm (p :: rq.ready) := by
    rw [whole]
    exact perm_place
  obtain ⟨next, result, counted', same, pushable, rest⟩ := counted.incRtTasks formed perm mine
  rw [RunQueue.enqueueRtEntity, RunQueue.dequeueRtEntity, if_neg (mem_ready_iff.not.mpr absent), Option.bind_some,
    rawEnqueueRtEntity, write, result]
  refine ⟨next, rfl, counted', ?_, pushable, rest⟩
  rw [ready, same, whole]

/-- What `dequeue_task_rt` does. -/
theorem Sound.dequeueTaskRt (sound : rq.Sound task i) (p : τ) :
    ∃ next, dequeueTaskRt task i p rq = some next ∧ next.Sound task i ∧ next.ready = rq.ready.erase p ∧
      next.pushableTasks = rq.pushableTasks.erase p ∧ SameRest rq next := by
  obtain ⟨next, result, counted, ready, pushable, rest⟩ := sound.toCounted.dequeueRtEntity p
  rw [RunQueue.dequeueTaskRt, result]
  refine ⟨_, rfl, counted.sound ?_ ?_ ?_, ready, congrArg (List.erase · p) pushable, ⟨rest.1, rest.2, rest.3, rest.4⟩⟩
  · rw [pushable]
    exact sound.sorted.sublist List.erase_sublist
  · rw [pushable]
    exact sound.nodup.erase p
  · intro q member
    rw [pushable, sound.nodup.mem_erase_iff] at member
    obtain ⟨waits, idle, migratory⟩ := sound.eligible q member.2
    rw [ready, rest.curr, sound.ready_nodup.mem_erase_iff]
    exact ⟨⟨member.1, waits⟩, idle, migratory⟩

/-- A task that waits and may go elsewhere is offered. -/
theorem Sound.enqueuePushableTask (sound : rq.Sound task i) (waits : p ∈ rq.ready) (idle : rq.curr ≠ p)
    (migratory : (task p).nrCpusAllowed > 1) : (enqueuePushableTask task p rq).Sound task i := by
  refine sound.toCounted.sound (sorted_insertBehind (sound.sorted.sublist List.erase_sublist)) ?_ fun q member => ?_
  · rw [perm_insertBehind.nodup_iff, List.nodup_cons]
    exact ⟨sound.nodup.not_mem_erase, sound.nodup.erase p⟩
  · rcases mem_insertBehind.mp member with rfl | member
    · exact ⟨waits, idle, migratory⟩
    · exact sound.eligible q (List.mem_of_mem_erase member)

theorem Sound.dequeuePushableTask (sound : rq.Sound task i) (p : τ) : (dequeuePushableTask p rq).Sound task i :=
  sound.toCounted.sound (sound.sorted.sublist List.erase_sublist) (sound.nodup.erase p) fun q member =>
    sound.eligible q (List.mem_of_mem_erase member)

/-- What `enqueue_task_rt` does. -/
theorem Sound.enqueueTaskRt (sound : rq.Sound task i) (head : Bool) (absent : p ∉ rq.ready)
    (mine : (task p).schedClass = .rt ∧ (task p).cpu = i) (below : (task p).prio < maxRtPrio) :
    ∃ next, enqueueTaskRt task i p head rq = some next ∧ next.Sound task i ∧
      next.ready = place task head p rq.ready ∧
      next.pushableTasks = (if rq.curr ≠ p ∧ (task p).nrCpusAllowed > 1 then
        insertBehind (fun p => (task p).prio) p rq.pushableTasks else rq.pushableTasks) ∧ SameRest rq next := by
  obtain ⟨next, result, counted, ready, pushable, rest⟩ := sound.toCounted.enqueueRtEntity head absent mine below
  have offered : p ∉ rq.pushableTasks := fun member => absent (sound.eligible p member).1
  have kept : next.Sound task i := by
    refine { counted with sorted := ?_, nodup := ?_, eligible := ?_ }
    · rw [pushable]
      exact sound.sorted
    · rw [pushable]
      exact sound.nodup
    · intro q member
      rw [pushable] at member
      obtain ⟨waits, idle, migratory⟩ := sound.eligible q member
      rw [ready, rest.curr, mem_place]
      exact ⟨.inr waits, idle, migratory⟩
  rw [RunQueue.enqueueTaskRt, result, Option.map_some, rest.curr]
  by_cases offers : rq.curr ≠ p ∧ (task p).nrCpusAllowed > 1
  · rw [if_pos offers, if_pos offers]
    refine ⟨_, rfl, kept.enqueuePushableTask ?_ ?_ offers.2, ready, ?_, ⟨rest.1, rest.2, rest.3, rest.4⟩⟩
    · rw [ready, mem_place]
      exact .inl rfl
    · rw [rest.curr]
      exact offers.1
    · rw [RunQueue.enqueuePushableTask, pushable, List.erase_of_not_mem offered]
  · rw [if_neg offers, if_neg offers]
    exact ⟨next, rfl, kept, ready, pushable, rest⟩

/-! ## Choosing the next task -/

/-- What `requeue_task_rt` does. -/
theorem Sound.requeueTaskRt (sound : rq.Sound task i) (head : Bool) (p : τ) :
    (requeueTaskRt task p head rq).Sound task i ∧
      (requeueTaskRt task p head rq).ready = (if p ∈ rq.ready then place task head p (rq.ready.erase p) else rq.ready) ∧
      (requeueTaskRt task p head rq).pushableTasks = rq.pushableTasks ∧ SameRest rq (requeueTaskRt task p head rq) := by
  rw [RunQueue.requeueTaskRt]
  by_cases member : p ∈ rq.ready
  · have below := sound.active.lt_bound member
    obtain ⟨formed, removed⟩ := sound.active.remove below
    have absent : p ∉ (rq.active.remove (task p).prio p).toList maxRtPrio := by
      rw [removed]
      exact sound.ready_nodup.not_mem_erase
    have moved : ∃ active : BucketQueue τ,
        (if head then rq.active.moveHead (task p).prio p else rq.active.moveTail (task p).prio p) = active ∧
        active.WellFormed (fun p => (task p).prio) maxRtPrio ∧
        active.toList maxRtPrio = place task head p (rq.ready.erase p) := by
      cases head with
      | false =>
        obtain ⟨formed', whole⟩ := formed.addTail absent below
        rw [← sound.active.moveTail_eq member] at formed' whole
        rw [removed] at whole
        exact ⟨_, rfl, formed', whole⟩
      | true =>
        obtain ⟨formed', whole⟩ := formed.addHead absent below
        rw [← sound.active.moveHead_eq member] at formed' whole
        rw [removed] at whole
        exact ⟨_, rfl, formed', whole⟩
    obtain ⟨active, write, formed', whole⟩ := moved
    have perm : (active.toList maxRtPrio).Perm rq.ready := by
      rw [whole]
      exact perm_place.trans (List.perm_cons_erase member).symm
    rw [if_pos (mem_ready_iff.mpr member), if_pos member, write]
    refine ⟨{ sound.toCounted.permute formed' perm with sorted := sound.sorted, nodup := sound.nodup, eligible := ?_ },
      whole, rfl, rfl, rfl, rfl, rfl⟩
    intro q offered
    obtain ⟨waits, idle, migratory⟩ := sound.eligible q offered
    exact ⟨perm.mem_iff.mpr waits, idle, migratory⟩
  · rw [if_neg (mem_ready_iff.not.mpr member), if_neg member]
    exact ⟨sound, rfl, rfl, .refl rq⟩

theorem putPrevTask_of_not_mem (absent : p ∉ rq.ready) : rq.putPrevTask task p = rq := by
  rw [putPrevTask, putPrevTaskRt]
  split_ifs with _ waits
  · exact absurd (mem_ready_iff.mp waits.1) absent
  · rfl
  · rfl

theorem Sound.setCurrTask (sound : rq.Sound task i) : rq.setCurrTask task' = rq := by
  rw [RunQueue.setCurrTask, setCurrTaskRt]
  split_ifs
  · have offered : rq.curr ∉ rq.pushableTasks := fun member => (sound.eligible _ member).2.1 rfl
    rw [RunQueue.dequeuePushableTask, List.erase_of_not_mem offered]
  · rfl

/-- The running task is offered too if it waits from now on. -/
theorem Sound.putPrevTask (sound : rq.Sound task i) : ∃ pushable,
    rq.putPrevTask task rq.curr = { rq with pushableTasks := pushable } ∧
    (pushable.Pairwise fun p q => (task p).prio ≤ (task q).prio) ∧ pushable.Nodup ∧
    ∀ p ∈ pushable, p ∈ rq.ready ∧ (task p).nrCpusAllowed > 1 := by
  have eligible (p : τ) (member : p ∈ rq.pushableTasks) : p ∈ rq.ready ∧ (task p).nrCpusAllowed > 1 :=
    ⟨(sound.eligible p member).1, (sound.eligible p member).2.2⟩
  rw [RunQueue.putPrevTask, putPrevTaskRt]
  split_ifs with _ waits
  · refine ⟨_, rfl, sorted_insertBehind (sound.sorted.sublist List.erase_sublist), ?_, fun p member => ?_⟩
    · rw [perm_insertBehind.nodup_iff, List.nodup_cons]
      exact ⟨sound.nodup.not_mem_erase, sound.nodup.erase _⟩
    · rcases mem_insertBehind.mp member with rfl | member
      · exact ⟨mem_ready_iff.mp waits.1, waits.2⟩
      · exact eligible p (List.mem_of_mem_erase member)
  · exact ⟨_, rfl, sound.sorted, sound.nodup, eligible⟩
  · exact ⟨_, rfl, sound.sorted, sound.nodup, eligible⟩

/-- What `pick_next_task_rt` does. -/
theorem Counted.pickNextTaskRt (counted : rq.Counted task i) (throttled : Bool) : ∃ postSchedule,
    pickNextTaskRt throttled rq = some (if throttled then none else rq.ready.head?, { rq with
      postSchedule
      pushableTasks := match if throttled then none else rq.ready.head? with
        | none => rq.pushableTasks
        | some p => rq.pushableTasks.erase p }) := by
  rw [RunQueue.pickNextTaskRt, counted.pickNextRtEntity]
  cases throttled with
  | true => exact ⟨_, if_pos (.inr rfl)⟩
  | false =>
    have count := counted.rtNrRunning
    cases waiting : rq.ready with
    | nil =>
      rw [waiting] at count
      exact ⟨_, if_pos (.inl count)⟩
    | cons p rest =>
      have some' : ¬ (rq.rtNrRunning = 0 ∨ false = true) := by
        rw [count, waiting]
        simp
      exact ⟨_, if_neg some'⟩

/-! ## Affinity -/

/-- What one task adds to the count of those that may move. -/
theorem Counted.migratory_eq (counted : rq.Counted task i) (member : p ∈ rq.ready) (info : TaskStruct n) :
    (rq.ready.countP fun q => (Function.update task p info q).nrCpusAllowed > 1) + (decide ((task p).nrCpusAllowed > 1)).toNat =
      rq.rtNrMigratory + (decide (info.nrCpusAllowed > 1)).toNat := by
  have perm := List.perm_cons_erase member
  have others : (rq.ready.erase p).countP (fun q => (Function.update task p info q).nrCpusAllowed > 1) =
      (rq.ready.erase p).countP fun q => (task q).nrCpusAllowed > 1 := by
    refine List.countP_congr fun q inside => ?_
    have other : q ≠ p := (counted.ready_nodup.mem_erase_iff.mp inside).1
    rw [Function.update_of_ne other]
  rw [counted.rtNrMigratory, perm.countP_eq, perm.countP_eq, List.countP_cons, List.countP_cons, others,
    Function.update_self]
  simp only [decide_eq_true_eq, Bool.toNat, Bool.cond_decide]
  omega

/-- A task is offered from now on exactly if it waits and may still go elsewhere. -/
theorem Sound.offerAgain (sound : rq.Sound task i) (member : p ∈ rq.ready) (weight : Nat) : ∃ pushable,
    RootDomain.offerAgain task p weight rq = { rq with pushableTasks := pushable } ∧
    (pushable.Pairwise fun p q => (task p).prio ≤ (task q).prio) ∧ pushable.Nodup ∧
    ∀ q ∈ pushable, q ∈ rq.ready ∧ rq.curr ≠ q ∧ if q = p then weight > 1 else (task q).nrCpusAllowed > 1 := by
  have erased : (if (task p).nrCpusAllowed > 1 then RunQueue.dequeuePushableTask p rq else rq) =
      { rq with pushableTasks := rq.pushableTasks.erase p } := by
    split_ifs with old
    · rfl
    · rw [List.erase_of_not_mem fun offered => old (sound.eligible p offered).2.2]
  have others (q : τ) (offered : q ∈ rq.pushableTasks.erase p) : q ∈ rq.ready ∧ rq.curr ≠ q ∧
      if q = p then weight > 1 else (task q).nrCpusAllowed > 1 := by
    obtain ⟨other, offered⟩ := sound.nodup.mem_erase_iff.mp offered
    rw [if_neg other]
    exact sound.eligible q offered
  rw [RootDomain.offerAgain, erased]
  split_ifs with waits wide
  · refine ⟨_, rfl, ?_, ?_, fun q offered => ?_⟩
    · exact sorted_insertBehind ((sound.sorted.sublist List.erase_sublist).sublist List.erase_sublist)
    · rw [perm_insertBehind.nodup_iff, List.nodup_cons]
      exact ⟨(sound.nodup.erase p).not_mem_erase, (sound.nodup.erase p).erase p⟩
    · rcases mem_insertBehind.mp offered with rfl | offered
      · rw [if_pos rfl]
        exact ⟨member, waits, wide⟩
      · exact others q (List.mem_of_mem_erase offered)
  · exact ⟨_, rfl, sound.sorted.sublist List.erase_sublist, sound.nodup.erase p, others⟩
  · have runs : rq.curr = p := not_not.mp waits
    have absent : p ∉ rq.pushableTasks := fun offered => (sound.eligible p offered).2.1 runs
    refine ⟨_, rfl, sound.sorted, sound.nodup, fun q offered => others q ?_⟩
    rwa [List.erase_of_not_mem absent]

/-- What `set_cpus_allowed_rt` does. -/
theorem Sound.setCpusAllowedRt (sound : rq.Sound task i) (newMask : Finset (Fin n))
    (filed : (task p).onRq = true ↔ p ∈ rq.ready) (below : (task p).prio < maxRtPrio) {info : TaskStruct n}
    (write : info = { task p with cpusAllowed := newMask, nrCpusAllowed := newMask.card }) :
    ∃ next, RootDomain.setCpusAllowedRt task p newMask rq = some next ∧
      next.Sound (Function.update task p info) i ∧ next.ready = rq.ready ∧ SameRest rq next := by
  have weight : info.nrCpusAllowed = newMask.card := by rw [write]
  have same (q : τ) : (Function.update task p info q).prio = (task q).prio ∧
      (Function.update task p info q).schedClass = (task q).schedClass ∧
      (Function.update task p info q).cpu = (task q).cpu := by
    by_cases here : q = p
    · rw [here, Function.update_self, write]
      exact ⟨rfl, rfl, rfl⟩
    · rw [Function.update_of_ne here]
      exact ⟨rfl, rfl, rfl⟩
  have prio (q : τ) : (Function.update task p info q).prio = (task q).prio := (same q).1
  rw [RootDomain.setCpusAllowedRt, if_pos below]
  by_cases changes : (task p).onRq ∧ newMask.card ≠ (task p).nrCpusAllowed
  · have member := filed.mp changes.1
    have count := sound.migratory_eq member info
    obtain ⟨pushable, offer, sorted, nodup, eligible⟩ := sound.offerAgain member newMask.card
    have eligible' (q : τ) (offered : q ∈ pushable) : q ∈ rq.ready ∧ rq.curr ≠ q ∧
        (Function.update task p info q).nrCpusAllowed > 1 := by
      obtain ⟨waits, idle, wide⟩ := eligible q offered
      refine ⟨waits, idle, ?_⟩
      by_cases here : q = p
      · rw [if_pos here] at wide
        rwa [here, Function.update_self, weight]
      · rw [if_neg here] at wide
        rwa [Function.update_of_ne here]
    simp only [← prio] at sorted
    rw [weight] at count
    have done (migratory : Nat) (total : migratory =
        rq.ready.countP fun q => (Function.update task p info q).nrCpusAllowed > 1) :=
      sound.toCounted.recount (fun q _ => same q) total sorted nodup eligible'
    rw [if_pos changes, offer]
    dsimp only
    split_ifs with more fewer none'
    · obtain ⟨next, result, spec⟩ := done (rq.rtNrMigratory + 1) (by
        simp only [decide_eq_false (Nat.not_lt.mpr more.1), decide_eq_true more.2] at count
        exact count.symm)
      exact ⟨next, congrArg some result, spec⟩
    · simp only [decide_eq_true fewer.1, decide_eq_false (Nat.not_lt.mpr fewer.2), Bool.toNat_true,
        Bool.toNat_false] at count
      omega
    · obtain ⟨next, result, spec⟩ := done (rq.rtNrMigratory - 1) (by
        simp only [decide_eq_true fewer.1, decide_eq_false (Nat.not_lt.mpr fewer.2), Bool.toNat_true,
          Bool.toNat_false] at count
        omega)
      exact ⟨next, congrArg some result, spec⟩
    · obtain ⟨next, result, spec⟩ := done rq.rtNrMigratory (by
        have both : (task p).nrCpusAllowed > 1 ↔ newMask.card > 1 := by omega
        simp only [both] at count
        omega)
      exact ⟨next, congrArg some result, spec⟩
  · rw [if_neg changes]
    refine ⟨rq, rfl, sound.congr fun q member => ?_, rfl, .refl rq⟩
    obtain ⟨prio, schedClass, cpu⟩ := same q
    refine ⟨prio, schedClass, cpu, ?_⟩
    by_cases here : q = p
    · subst here
      rw [Function.update_self, weight]
      exact not_not.mp fun other => changes ⟨filed.mpr member, other⟩
    · rw [Function.update_of_ne here]

/-! ## Classes -/

/-- What `dequeue_task` does, for a task of any class. -/
theorem Sound.dequeueTask (sound : rq.Sound task i) (p : τ) :
    ∃ next, dequeueTask task i p rq = some next ∧ next.Sound task i ∧ next.ready = rq.ready.erase p ∧
      next.pushableTasks = rq.pushableTasks.erase p ∧ SameRest rq next := by
  rw [RunQueue.dequeueTask]
  split_ifs with realTime
  · exact sound.dequeueTaskRt p
  · have absent : p ∉ rq.ready := fun member => realTime (sound.mine p member).1
    have offered : p ∉ rq.pushableTasks := fun member => absent (sound.eligible p member).1
    exact ⟨rq, rfl, sound, (List.erase_of_not_mem absent).symm, (List.erase_of_not_mem offered).symm, .refl rq⟩

/-- What `enqueue_task` does, for a task of any class. -/
theorem Sound.enqueueTask (sound : rq.Sound task i) (head : Bool) (absent : p ∉ rq.ready) (cpu : (task p).cpu = i)
    (below : (task p).schedClass = .rt → (task p).prio < maxRtPrio) :
    ∃ next, enqueueTask task i p head rq = some next ∧ next.Sound task i ∧
      next.ready = (if (task p).schedClass = .rt then place task head p rq.ready else rq.ready) ∧ SameRest rq next := by
  rw [RunQueue.enqueueTask]
  split_ifs with realTime
  · obtain ⟨next, result, sound', ready, _, rest⟩ := sound.enqueueTaskRt head absent
      ⟨realTime, cpu⟩ (below realTime)
    exact ⟨next, result, sound', ready, rest⟩
  · exact ⟨rq, rfl, sound, rfl, .refl rq⟩

end

end RunQueue

end Cs544.Sched
