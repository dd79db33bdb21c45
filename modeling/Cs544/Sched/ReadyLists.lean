import Cs544.Sched.RtQueueInvariant

/-! Ready lists: what the run queues of real-time tasks are for.

On each CPU the real-time tasks that may run are in one list, the most urgent first and those
of one priority in the order they came. A task is in the list of its CPU as long as it may run,
and in no other. The run queues refine these lists, whatever the CPUs do in turn.
-/

set_option autoImplicit false

namespace Cs544.Sched

open Cs544.Library RunQueue

/-! ## The lists -/

structure ReadyLists (n : Nat) (τ : Type) where
  task : τ → TaskStruct n
  ready : Fin n → List τ
  curr : Fin n → τ

variable {n : Nat} {τ : Type}

section
variable [DecidableEq τ]

/-- A task changes. It leaves its list, and is put into the one it belongs to then. -/
def ReadyLists.refile (a : ReadyLists n τ) (p : τ) (info : TaskStruct n) (head : Bool) : ReadyLists n τ :=
  let task := Function.update a.task p info
  { a with
    task
    ready := fun i =>
      let others := (a.ready i).erase p
      if info.onRq ∧ info.schedClass = .rt ∧ info.cpu = i then place task head p others else others }

/-- A waiting task goes to a CPU that it may run on, where no other one is as urgent. -/
def ReadyLists.Moved (a : ReadyLists n τ) (src dest : Fin n) (b : ReadyLists n τ) : Prop :=
  ∃ p, (a.task p).onRq = true ∧ (a.task p).cpu = src ∧ a.curr src ≠ p ∧ dest ∈ (a.task p).cpusAllowed ∧ dest ≠ src ∧
    (∀ q ∈ a.ready dest, (a.task p).prio < (a.task q).prio) ∧
    b = a.refile p ((a.task p).setTaskCpu dest) false

def ReadyLists.Step (a : ReadyLists n τ) (e : RtEvent n τ) (b : ReadyLists n τ) : Prop :=
  match e with
  | .wakeUp p cpu => b = a.refile p { (a.task p).setTaskCpu cpu with onRq := true } false
  | .sleep i => b = a.refile (a.curr i) { a.task (a.curr i) with onRq := false } false
  | .schedule i stop other throttled => b = { a with
      curr := Function.update a.curr i (stop.getD ((if throttled then none else (a.ready i).head?).getD other)) }
  | .requeue p head => b = a.refile p (a.task p) head
  | .setprio p prio => b = a.refile p ((a.task p).setPrio prio) ((a.task p).prio < prio)
  | .setscheduler p prio => b = a.refile p ((a.task p).setPrio prio) false
  | .setCpusAllowed p newMask => b = { a with
      task := Function.update a.task p { a.task p with cpusAllowed := newMask, nrCpusAllowed := newMask.card } }
  | .migrate p src dest => b = a ∨ dest ∈ (a.task p).cpusAllowed ∧ (a.task p).cpu = src ∧
      b = a.refile p ((a.task p).setTaskCpu dest) false
  | .push _ i | .pushRelocked i _ _ => b = a ∨ ∃ dest, a.Moved i dest b
  | .pull thisCpu cpu | .pullRelocked thisCpu cpu => b = a ∨ a.Moved cpu thisCpu b
  | .pushGivenUp _ _ | .online _ | .offline _ => b = a

end

namespace RootDomain

/-- What the lists of all run queues are together. -/
def lists (rd : RootDomain n τ) : ReadyLists n τ where
  task := rd.task
  ready i := (rd.rq i).ready
  curr i := (rd.rq i).curr

/-- Every run queue is sound, and a real-time task is in the lists of its CPU exactly while it
may run. -/
structure Sound (rd : RootDomain n τ) : Prop where
  rq : ∀ i, (rd.rq i).Sound rd.task i
  filed : ∀ p, (rd.task p).schedClass = .rt → ((rd.task p).onRq = true ↔ p ∈ (rd.rq (rd.task p).cpu).ready)
  curr : ∀ i, (rd.task (rd.rq i).curr).cpu = i
  prio : ∀ p, (rd.task p).schedClass = .rt → (rd.task p).prio < maxRtPrio

/-- The same while one task is in no list. -/
structure Aside (rd : RootDomain n τ) (p : τ) : Prop where
  rq : ∀ i, (rd.rq i).Sound rd.task i
  filed : ∀ q, q ≠ p → (rd.task q).schedClass = .rt →
    ((rd.task q).onRq = true ↔ q ∈ (rd.rq (rd.task q).cpu).ready)
  curr : ∀ i, (rd.task (rd.rq i).curr).cpu = i
  prio : ∀ q, (rd.task q).schedClass = .rt → (rd.task q).prio < maxRtPrio
  absent : ∀ i, p ∉ (rd.rq i).ready

variable {rd next : RootDomain n τ} {p q : τ} {i j src dest : Fin n} {info : TaskStruct n}

theorem place_congr {task task' : τ → TaskStruct n} (same : ∀ q, (task' q).prio = (task q).prio) (head : Bool)
    (l : List τ) : place task' head p l = place task head p l := by
  simp only [place, same]

theorem Sound.mem_ready (sound : rd.Sound) :
    p ∈ (rd.rq i).ready ↔ (rd.task p).onRq = true ∧ (rd.task p).schedClass = .rt ∧ (rd.task p).cpu = i := by
  constructor
  · intro member
    obtain ⟨realTime, cpu⟩ := (sound.rq i).mine p member
    refine ⟨(sound.filed p realTime).mpr ?_, realTime, cpu⟩
    rwa [cpu]
  · rintro ⟨onRq, realTime, rfl⟩
    exact (sound.filed p realTime).mp onRq

/-- A task runs on no other CPU than its own. -/
theorem Sound.idle (sound : rd.Sound) (idle : (rd.rq (rd.task p).cpu).curr ≠ p) (i : Fin n) : (rd.rq i).curr ≠ p := by
  intro runs
  have cpu := sound.curr i
  rw [runs] at cpu
  exact idle (by rwa [cpu])

/-- A task that may not run is in no list. -/
theorem Sound.aside (sound : rd.Sound) (off : (rd.task p).onRq = false) : rd.Aside p where
  rq := sound.rq
  filed q _ := sound.filed q
  curr := sound.curr
  prio := sound.prio
  absent i member := by
    rw [sound.mem_ready, off] at member
    cases member.1

theorem Aside.sound (aside : rd.Aside p) (off : (rd.task p).onRq = false) : rd.Sound where
  rq := aside.rq
  filed q realTime := by
    by_cases here : q = p
    · subst here
      rw [off]
      exact iff_of_false Bool.false_ne_true (aside.absent _)
    · exact aside.filed q here realTime
  curr := aside.curr
  prio := aside.prio

@[simp] theorem setRq_self (rq : RunQueue τ) : (rd.setRq i rq).rq i = rq := Function.update_self ..

theorem setRq_of_ne (rq : RunQueue τ) (other : j ≠ i) : (rd.setRq i rq).rq j = rd.rq j :=
  Function.update_of_ne other ..

/-- What is true of a run queue that is written and was true of the others is true of all. -/
theorem forall_setRq {P : Fin n → RunQueue τ → Prop} {rq : RunQueue τ} (here : P i rq)
    (others : ∀ j, j ≠ i → P j (rd.rq j)) (j : Fin n) : P j ((rd.setRq i rq).rq j) := by
  by_cases same : j = i
  · rw [same, setRq_self]
    exact here
  · rw [setRq_of_ne rq same]
    exact others j same

@[simp] theorem setRq_eq_self : rd.setRq i (rd.rq i) = rd := by
  rw [setRq, Function.update_eq_self]

/-- A run queue is written whose lists have the same tasks. -/
theorem Sound.setRq (sound : rd.Sound) {rq : RunQueue τ} (queue : rq.Sound rd.task i)
    (same : ∀ q, q ∈ rq.ready ↔ q ∈ (rd.rq i).ready) (cpu : (rd.task rq.curr).cpu = i) : (rd.setRq i rq).Sound where
  rq := forall_setRq (P := fun j rq => rq.Sound rd.task j) queue fun j _ => sound.rq j
  filed q realTime := (sound.filed q realTime).trans (forall_setRq (i := i)
    (P := fun j rq => q ∈ (rd.rq j).ready ↔ q ∈ rq.ready) (same q).symm (fun _ _ => Iff.rfl) _)
  curr := forall_setRq (P := fun j rq => (rd.task rq.curr).cpu = j) cpu fun j _ => sound.curr j
  prio := sound.prio

/-- The lists are as before but for the task that runs. -/
theorem lists_setRq {rq : RunQueue τ} (ready : rq.ready = (rd.rq i).ready) :
    (rd.setRq i rq).lists = { rd.lists with curr := Function.update rd.lists.curr i rq.curr } := by
  simp only [lists, ReadyLists.mk.injEq, RootDomain.setRq, true_and]
  constructor
  · funext j
    by_cases here : j = i
    · rw [here, Function.update_self, ready]
    · rw [Function.update_of_ne here]
  · funext j
    exact Function.apply_update (fun _ => RunQueue.curr) rd.rq i rq j

/-- The lists are as before if the same task runs. -/
theorem lists_setRq_of_curr {rq : RunQueue τ} (ready : rq.ready = (rd.rq i).ready) (curr : rq.curr = (rd.rq i).curr) :
    (rd.setRq i rq).lists = rd.lists := by
  rw [lists_setRq ready, curr]
  exact congrArg (ReadyLists.mk _ _) (Function.update_eq_self i rd.lists.curr)

/-! ## Where to push -/

theorem electCpu_mem {domains : List (SchedDomain n)} {thisCpu cpu best : Fin n} {lowestMask : Finset (Fin n)}
    (elected : electCpu domains thisCpu cpu lowestMask = some best) : best ∈ lowestMask := by
  have first {P : Fin n → Bool} (found : (List.finRange n).find? P = some best) : P best = true :=
    List.find?_some found
  rw [electCpu] at elected
  by_cases last : cpu ∈ lowestMask
  · rw [if_pos last] at elected
    cases elected
    exact last
  · rw [if_neg last] at elected
    cases near : domains.findSome? (bestCpu thisCpu lowestMask) with
    | some found =>
      rw [near] at elected
      cases elected
      obtain ⟨sd, _, inside⟩ := List.exists_of_findSome?_eq_some near
      rw [bestCpu] at inside
      split_ifs at inside with _ here
      · cases inside
        exact here.1
      · exact (of_decide_eq_true (first inside)).1
    | none =>
      rw [near] at elected
      dsimp only at elected
      split_ifs at elected with here
      · cases elected
        exact here
      · exact of_decide_eq_true (first elected)

/-- A task is not sent where it must not run. -/
theorem findLowestRq_allowed {platform : Platform n} {thisCpu lowest : Fin n}
    (found : rd.findLowestRq platform thisCpu p = some lowest) : lowest ∈ (rd.task p).cpusAllowed := by
  rw [findLowestRq] at found
  split_ifs at found
  obtain ⟨lowestMask, mask, elected⟩ := Option.bind_eq_some_iff.mp found
  exact (platform.cpupriFind_spec _ _ _ _ mask).2 (electCpu_mem elected)

/-- A task is sent to another CPU, where it is more urgent than all tasks. -/
theorem findLockLowestRq_spec {platform : Platform n} {thisCpu lowest : Fin n}
    (found : rd.findLockLowestRq platform thisCpu p i = some lowest) : lowest ∈ (rd.task p).cpusAllowed ∧ lowest ≠ i ∧
      (rd.task p).prio < (rd.rq lowest).highestPrioCurr := by
  rw [findLockLowestRq] at found
  cases first : rd.findLowestRq platform thisCpu p with
  | none =>
    rw [first] at found
    cases found
  | some cpu =>
    rw [first] at found
    dsimp only at found
    split_ifs at found with fits
    cases found
    exact ⟨findLowestRq_allowed first, fits⟩

/-- The priority of a CPU bounds that of its tasks. -/
theorem Sound.highest_le (sound : rd.Sound) (member : q ∈ (rd.rq i).ready) :
    (rd.rq i).highestPrioCurr ≤ (rd.task q).prio := by
  rw [(sound.rq i).highestPrioCurr]
  exact (sound.rq i).active.firstBit_le_level member

/-- A run queue that is to be scheduled anew is as before otherwise. -/
theorem Sound.resched (sound : rd.Sound) (i : Fin n) : (rd.setRq i (rd.rq i).resched).Sound ∧
    (rd.setRq i (rd.rq i).resched).lists = rd.lists :=
  ⟨sound.setRq { sound.rq i with } (fun _ => Iff.rfl) (sound.curr i), lists_setRq_of_curr rfl rfl⟩

/-! ## CPUs that come and go -/

theorem Sound.setRqOnline (sound : rd.Sound) (i : Fin n) : (rd.setRqOnline i).Sound ∧
    (rd.setRqOnline i).lists = rd.lists := by
  rw [RootDomain.setRqOnline]
  split_ifs with on
  · exact ⟨sound, rfl⟩
  · obtain ⟨rq, result, queue, ready, curr⟩ := (sound.rq i).rqOnlineRt (Bool.not_eq_true _ ▸ on)
    rw [result]
    refine ⟨sound.setRq queue (fun q => by rw [ready]) ?_, lists_setRq_of_curr ready curr⟩
    rw [curr]
    exact sound.curr i

theorem Sound.setRqOffline (sound : rd.Sound) (i : Fin n) : (rd.setRqOffline i).Sound ∧
    (rd.setRqOffline i).lists = rd.lists := by
  rw [RootDomain.setRqOffline]
  split_ifs with on
  · obtain ⟨rq, result, queue, ready, curr⟩ := (sound.rq i).rqOfflineRt on
    rw [result]
    refine ⟨sound.setRq queue (fun q => by rw [ready]) ?_, lists_setRq_of_curr ready curr⟩
    rw [curr]
    exact sound.curr i
  · exact ⟨sound, rfl⟩

section
variable [DecidableEq τ]

@[simp] theorem setTask_self : (rd.setTask p info).task p = info := Function.update_self ..

theorem setTask_of_ne (other : q ≠ p) : (rd.setTask p info).task q = rd.task q := Function.update_of_ne other ..

/-! ## Taking a task off and putting it back -/

/-- What taking a task off does to the run queues. -/
def Erased (p : τ) (rd next : RootDomain n τ) : Prop :=
  ∀ i, (next.rq i).ready = (rd.rq i).ready.erase p ∧
    (next.rq i).pushableTasks = (rd.rq i).pushableTasks.erase p ∧ SameRest (rd.rq i) (next.rq i)

theorem Sound.deactivateTask (sound : rd.Sound) (p : τ) :
    ∃ next, rd.deactivateTask p = some next ∧ next.Aside p ∧ next.task = rd.task ∧ Erased p rd next := by
  obtain ⟨rq, result, sound', ready, pushable, rest⟩ := (sound.rq (rd.task p).cpu).dequeueTask p
  have erased : Erased p rd (rd.setRq (rd.task p).cpu rq) := by
    refine forall_setRq (P := fun i rq => rq.ready = (rd.rq i).ready.erase p ∧
      rq.pushableTasks = (rd.rq i).pushableTasks.erase p ∧ SameRest (rd.rq i) rq) ⟨ready, pushable, rest⟩ fun j other => ?_
    have absent : p ∉ (rd.rq j).ready := fun member => other ((sound.rq j).mine p member).2.symm
    have offered : p ∉ (rd.rq j).pushableTasks := fun member => absent ((sound.rq j).eligible p member).1
    exact ⟨(List.erase_of_not_mem absent).symm, (List.erase_of_not_mem offered).symm, .refl _⟩
  rw [RootDomain.deactivateTask, result]
  refine ⟨_, rfl, ⟨?_, fun q other realTime => ?_, fun i => ?_, sound.prio, fun i => ?_⟩, rfl, erased⟩
  · exact forall_setRq (P := fun i rq => rq.Sound rd.task i) sound' fun j _ => sound.rq j
  · rw [(erased _).1, List.mem_erase_of_ne other]
    exact sound.filed q realTime
  · rw [(erased i).2.2.curr]
    exact sound.curr i
  · rw [(erased i).1]
    exact (sound.rq i).ready_nodup.not_mem_erase

/-- A task that is in no list may change, and may change its CPU unless it runs. -/
theorem Aside.setTask (aside : rd.Aside p) (info : TaskStruct n) (prio : info.schedClass = .rt → info.prio < maxRtPrio)
    (cpu : info.cpu = (rd.task p).cpu ∨ ∀ i, (rd.rq i).curr ≠ p) : (rd.setTask p info).Aside p where
  rq i := (aside.rq i).congr fun q member => by
    have other : q ≠ p := fun same => aside.absent i (same ▸ member)
    rw [setTask_of_ne other]
    exact ⟨rfl, rfl, rfl, rfl⟩
  filed q other := by
    rw [setTask_of_ne other]
    exact aside.filed q other
  curr i := by
    show ((rd.setTask p info).task (rd.rq i).curr).cpu = i
    by_cases runs : (rd.rq i).curr = p
    · rw [runs, setTask_self, cpu.resolve_right fun idle => idle i runs, ← runs]
      exact aside.curr i
    · rw [setTask_of_ne runs]
      exact aside.curr i
  prio q realTime := by
    by_cases here : q = p
    · rw [here, setTask_self] at realTime ⊢
      exact prio realTime
    · rw [setTask_of_ne here] at realTime ⊢
      exact aside.prio q realTime
  absent := aside.absent

/-- What putting a task into the list of its CPU does to the run queues. -/
def Placed (p : τ) (head : Bool) (rd next : RootDomain n τ) : Prop :=
  ∀ i, (next.rq i).ready = (if (rd.task p).schedClass = .rt ∧ (rd.task p).cpu = i then
      place rd.task head p (rd.rq i).ready else (rd.rq i).ready) ∧
    (i ≠ (rd.task p).cpu → (next.rq i).pushableTasks = (rd.rq i).pushableTasks) ∧ SameRest (rd.rq i) (next.rq i)

theorem Aside.activateTask (aside : rd.Aside p) (head : Bool) : ∃ next, rd.activateTask p head = some next ∧
    next.task = rd.task ∧ (∀ i, (next.rq i).Sound rd.task i) ∧ Placed p head rd next := by
  obtain ⟨rq, result, sound, ready, rest⟩ :=
    (aside.rq (rd.task p).cpu).enqueueTask head (aside.absent _) rfl (aside.prio p)
  rw [RootDomain.activateTask, result]
  refine ⟨_, rfl, rfl, ?_, ?_⟩
  · exact forall_setRq (P := fun i rq => rq.Sound rd.task i) sound fun j _ => aside.rq j
  · refine forall_setRq (P := fun i rq => rq.ready = (if (rd.task p).schedClass = .rt ∧ (rd.task p).cpu = i then
      place rd.task head p (rd.rq i).ready else (rd.rq i).ready) ∧
      (i ≠ (rd.task p).cpu → rq.pushableTasks = (rd.rq i).pushableTasks) ∧ SameRest (rd.rq i) rq)
      ⟨?_, fun other => absurd rfl other, rest⟩ fun j other => ?_
    · rw [ready]
      simp only [and_true]
    · rw [if_neg fun here => other here.2.symm]
      exact ⟨rfl, fun _ => rfl, .refl _⟩

/-- What becomes of a task that was taken off, has changed and is put back. -/
structure Refiled (p : τ) (info : TaskStruct n) (head : Bool) (rd next : RootDomain n τ) : Prop where
  sound : next.Sound
  lists : next.lists = rd.lists.refile p info head
  pushableTasks : ∀ i, i ≠ info.cpu → (next.rq i).pushableTasks = (rd.rq i).pushableTasks.erase p
  rest : ∀ i, SameRest (rd.rq i) (next.rq i)

theorem Aside.placed {off : RootDomain n τ} (aside : off.Aside p) (erased : Erased p rd off)
    (task : off.task = Function.update rd.task p info) (onRq : info.onRq = true) {head : Bool}
    (same : next.task = off.task) (queues : ∀ i, (next.rq i).Sound off.task i) (placed : Placed p head off next) :
    Refiled p info head rd next := by
  have self : off.task p = info := by rw [task, Function.update_self]
  have rest (i : Fin n) : SameRest (rd.rq i) (next.rq i) := by
    obtain ⟨curr, needResched, postSchedule, online⟩ := (erased i).2.2
    obtain ⟨curr', needResched', postSchedule', online'⟩ := (placed i).2.2
    exact ⟨curr'.trans curr, needResched'.trans needResched, postSchedule'.trans postSchedule, online'.trans online⟩
  refine ⟨⟨fun i => ?_, fun q realTime => ?_, fun i => ?_, ?_⟩, ?_, fun i other => ?_, rest⟩
  · rw [same]
    exact queues i
  · rw [same] at realTime ⊢
    rw [(placed _).1]
    by_cases here : q = p
    · rw [here] at realTime ⊢
      rw [if_pos ⟨realTime, rfl⟩, mem_place, self]
      exact iff_of_true onRq (.inl rfl)
    · rw [aside.filed q here realTime]
      split_ifs
      · rw [mem_place, or_iff_right here]
      · rfl
  · rw [same, (placed i).2.2.curr]
    exact aside.curr i
  · rw [same]
    exact aside.prio
  · simp only [RootDomain.lists, ReadyLists.refile, ReadyLists.mk.injEq, same, task, true_and]
    constructor
    · funext i
      rw [(placed i).1, (erased i).1, self, task]
      simp only [onRq, true_and]
    · funext i
      exact (rest i).curr
  · rw [(placed i).2.1 (by rwa [self]), (erased i).2.1]

theorem Aside.refiled {off : RootDomain n τ} (aside : off.Aside p) (erased : Erased p rd off) (info : TaskStruct n)
    (task : off.task = Function.update rd.task p info) (onRq : info.onRq = true) (head : Bool) :
    ∃ next, off.activateTask p head = some next ∧ Refiled p info head rd next := by
  obtain ⟨next, result, same, queues, placed⟩ := aside.activateTask head
  exact ⟨next, result, aside.placed erased task onRq same queues placed⟩

/-- Nothing is taken off if the task is in no list. -/
theorem Aside.erased (aside : rd.Aside p) {off : RootDomain n τ} (same : off.rq = rd.rq) : Erased p rd off := by
  intro i
  have offered : p ∉ (rd.rq i).pushableTasks := fun member => aside.absent i ((aside.rq i).eligible p member).1
  rw [same, List.erase_of_not_mem (aside.absent i), List.erase_of_not_mem offered]
  exact ⟨rfl, rfl, .refl _⟩

/-! ## Events -/

theorem Sound.moveTask (sound : rd.Sound) (onRq : (rd.task p).onRq = true) (idle : (rd.rq (rd.task p).cpu).curr ≠ p)
    (dest : Fin n) :
    ∃ next, rd.moveTask p dest = some next ∧ Refiled p ((rd.task p).setTaskCpu dest) false rd next := by
  obtain ⟨off, result, aside, task, erased⟩ := sound.deactivateTask p
  have idle' (i : Fin n) : (off.rq i).curr ≠ p := by
    rw [(erased i).2.2.curr]
    exact sound.idle idle i
  have moved := aside.setTask ((rd.task p).setTaskCpu dest) (sound.prio p) (.inr idle')
  rw [RootDomain.moveTask, result, Option.bind_some, task]
  refine moved.refiled erased ((rd.task p).setTaskCpu dest) ?_ onRq false
  rw [RootDomain.setTask, task]

theorem Sound.tryToWakeUp (sound : rd.Sound) (off : (rd.task p).onRq = false) (idle : ∀ i, (rd.rq i).curr ≠ p)
    (cpu : Fin n) : ∃ next, rd.tryToWakeUp p cpu = some next ∧
      Refiled p { (rd.task p).setTaskCpu cpu with onRq := true } false rd next := by
  have aside := sound.aside off
  obtain ⟨next, result, same, queues, placed⟩ :=
    (aside.setTask ((rd.task p).setTaskCpu cpu) (sound.prio p) (.inr idle)).activateTask false
  -- For the lists it makes no difference that the task may run only now.
  have woken := aside.setTask { (rd.task p).setTaskCpu cpu with onRq := true } (sound.prio p) (.inr idle)
  have agree (q : τ) : (rd.setTask p { (rd.task p).setTaskCpu cpu with onRq := true }).task q =
      { (rd.setTask p ((rd.task p).setTaskCpu cpu)).task q with
        onRq := if q = p then true else (rd.task q).onRq } := by
    by_cases here : q = p
    · rw [here, setTask_self, setTask_self, if_pos rfl]
    · rw [setTask_of_ne here, setTask_of_ne here, if_neg here]
  rw [RootDomain.tryToWakeUp, result, Option.map_some, same, setTask_self]
  refine ⟨_, rfl, woken.placed (aside.erased rfl) rfl rfl ?_ (fun i => ?_) fun i => ?_⟩
  · rw [RootDomain.setTask, same]
    simp only [RootDomain.setTask, Function.update_idem]
  · refine (queues i).congr fun q _ => ?_
    rw [agree]
    exact ⟨rfl, rfl, rfl, rfl⟩
  · obtain ⟨ready, pushable, rest⟩ := placed i
    rw [setTask_self] at ready pushable ⊢
    have prio (q : τ) : ((rd.setTask p { (rd.task p).setTaskCpu cpu with onRq := true }).task q).prio =
        ((rd.setTask p ((rd.task p).setTaskCpu cpu)).task q).prio := by rw [agree]
    rw [place_congr prio]
    exact ⟨ready, pushable, rest⟩

theorem Sound.goToSleep (sound : rd.Sound) (i : Fin n) : ∃ next, rd.goToSleep i = some next ∧ next.Sound ∧
    next.lists = rd.lists.refile (rd.rq i).curr { rd.task (rd.rq i).curr with onRq := false } false := by
  obtain ⟨off, result, aside, task, erased⟩ := sound.deactivateTask (rd.rq i).curr
  rw [RootDomain.goToSleep]
  dsimp only
  rw [result, Option.map_some, task]
  refine ⟨_, rfl, (aside.setTask _ ?_ (.inl ?_)).sound ?_, ?_⟩
  · rw [← task]
    exact aside.prio _
  · rw [task]
  · rw [setTask_self]
  · simp only [lists, ReadyLists.refile, ReadyLists.mk.injEq, RootDomain.setTask, task, true_and, Bool.false_eq_true,
      false_and, if_false]
    exact ⟨funext fun j => (erased j).1, funext fun j => (erased j).2.2.curr⟩

theorem Sound.schedule (sound : rd.Sound) {stop : Option τ} {other : τ}
    (allowed : ∀ p, p = other ∨ some p = stop → (rd.task p).schedClass ≠ .rt ∧ (rd.task p).cpu = i) (throttled : Bool) :
    ∃ next, rd.schedule i stop other throttled = some next ∧ next.Sound ∧ next.lists = { rd.lists with
      curr := Function.update rd.lists.curr i
        (stop.getD ((if throttled then none else (rd.lists.ready i).head?).getD other)) } := by
  obtain ⟨pushable, put, sorted, nodup, eligible⟩ := (sound.rq i).putPrevTask
  have counted := (sound.rq i).toCounted
  -- Only a task that is picked from the lists may have been offered.
  have absent (p : τ) (candidate : p = other ∨ some p = stop) : p ∉ pushable := fun member =>
    (allowed p candidate).1 ((sound.rq i).mine p (eligible p member).1).1
  cases stop with
  | some next =>
    have switched := counted.switch next false (rd.rq i).postSchedule sorted nodup eligible (absent next (.inr rfl))
    rw [RootDomain.schedule, put]
    exact ⟨_, rfl, sound.setRq switched (fun _ => Iff.rfl) (allowed next (.inr rfl)).2, lists_setRq rfl⟩
  | none =>
    have offering : Counted rd.task i { rd.rq i with pushableTasks := pushable } := { counted with }
    obtain ⟨postSchedule, pick⟩ := offering.pickNextTaskRt throttled
    obtain ⟨choice, chosen⟩ : ∃ choice, choice = if throttled then none else (rd.rq i).ready.head? := ⟨_, rfl⟩
    have lists : (if throttled then none else (rd.lists.ready i).head?) = choice := chosen.symm
    rw [show (if throttled then none else (RunQueue.ready { rd.rq i with pushableTasks := pushable }).head?) = choice
      from chosen.symm] at pick
    rw [RootDomain.schedule, put, lists]
    dsimp only
    rw [pick]
    cases choice with
    | none =>
      have switched := counted.switch other false postSchedule sorted nodup eligible (absent other (.inl rfl))
      exact ⟨_, rfl, sound.setRq switched (fun _ => Iff.rfl) (allowed other (.inl rfl)).2, lists_setRq rfl⟩
    | some p =>
      have member : p ∈ (rd.rq i).ready := by
        split_ifs at chosen
        exact List.mem_of_head? chosen.symm
      have switched := counted.switch p false postSchedule (sorted.sublist List.erase_sublist) (nodup.erase p)
        (fun q offered => eligible q (List.mem_of_mem_erase offered)) nodup.not_mem_erase
      exact ⟨_, rfl, sound.setRq switched (fun _ => Iff.rfl) ((sound.rq i).mine p member).2, lists_setRq rfl⟩

theorem Sound.requeueTask (sound : rd.Sound) (p : τ) (head : Bool) : (rd.requeueTask p head).Sound ∧
    (rd.requeueTask p head).lists = rd.lists.refile p (rd.task p) head := by
  obtain ⟨queue, ready, _, rest⟩ := (sound.rq (rd.task p).cpu).requeueTaskRt head p
  rw [RootDomain.requeueTask]
  refine ⟨sound.setRq queue (fun q => ?_) ?_, ?_⟩
  · rw [ready]
    split_ifs with member
    · rw [mem_place, ← List.mem_cons, (List.perm_cons_erase member).symm.mem_iff]
    · rfl
  · rw [rest.curr]
    exact sound.curr _
  · simp only [lists, ReadyLists.refile, ReadyLists.mk.injEq, Function.update_eq_self, RootDomain.setRq, true_and]
    constructor
    · funext j
      by_cases here : j = (rd.task p).cpu
      · subst here
        rw [Function.update_self, ready]
        by_cases member : p ∈ (rd.rq (rd.task p).cpu).ready
        · rw [if_pos member, if_pos (sound.mem_ready.mp member)]
        · rw [if_neg member, if_neg (sound.mem_ready.not.mp member), List.erase_of_not_mem member]
      · have absent : p ∉ (rd.rq j).ready := fun member => here (sound.mem_ready.mp member).2.2.symm
        rw [Function.update_of_ne here, if_neg fun all => here all.2.2.symm, List.erase_of_not_mem absent]
    · funext j
      by_cases here : j = (rd.task p).cpu
      · subst here
        rw [Function.update_self, rest.curr]
      · rw [Function.update_of_ne here]

/-- While a task is in no list, the class has nothing to do. -/
theorem Aside.changeTask (aside : rd.Aside p) {running : Bool}
    (runs : running = true → (rd.rq (rd.task p).cpu).curr = p) (prio : Nat) :
    rd.changeTask p running prio = rd.setTask p ((rd.task p).setPrio prio) := by
  rw [RootDomain.changeTask]
  cases running with
  | false => rfl
  | true =>
    have put : (rd.rq (rd.task p).cpu).putPrevTask rd.task p = rd.rq (rd.task p).cpu :=
      putPrevTask_of_not_mem (aside.absent _)
    rw [if_pos rfl, if_pos rfl, put, setRq_eq_self]
    exact (congrArg (RootDomain.setRq _ · _) (aside.rq _).setCurrTask).trans setRq_eq_self

theorem setPrio_below (task : TaskStruct n) (prio : Nat) (realTime : (task.setPrio prio).schedClass = .rt) :
    (task.setPrio prio).prio < maxRtPrio := by
  rw [TaskStruct.setPrio] at realTime ⊢
  dsimp only at realTime ⊢
  split_ifs at realTime with below
  · exact below

/-- What `rt_mutex_setprio` and `__sched_setscheduler` do. -/
theorem Sound.changePrio (sound : rd.Sound) (p : τ) (prio : Nat) (head : Bool) :
    ∃ next, rd.changePrio p prio head = some next ∧ next.Sound ∧
      next.lists = rd.lists.refile p ((rd.task p).setPrio prio) head := by
  rw [RootDomain.changePrio]
  cases onRq : (rd.task p).onRq with
  | false =>
    have aside := sound.aside onRq
    have changed := aside.setTask _ (setPrio_below (rd.task p) prio) (.inl rfl)
    have erased : Erased p rd (rd.setTask p ((rd.task p).setPrio prio)) := aside.erased rfl
    refine ⟨_, congrArg some (aside.changeTask of_decide_eq_true prio), changed.sound ?_, ?_⟩
    · rw [setTask_self]
      exact onRq
    · have off : ((rd.task p).setPrio prio).onRq = false := onRq
      simp only [lists, ReadyLists.refile, ReadyLists.mk.injEq, off, Bool.false_eq_true, false_and, if_false]
      exact ⟨rfl, funext fun i => (erased i).1, rfl⟩
  | true =>
    obtain ⟨off, result, aside, task, erased⟩ := sound.deactivateTask p
    have runs : decide ((rd.rq (rd.task p).cpu).curr = p) = true → (off.rq (off.task p).cpu).curr = p := by
      rw [task, (erased _).2.2.curr]
      exact of_decide_eq_true
    have changed := aside.setTask _ (setPrio_below (off.task p) prio) (.inl rfl)
    have on : ((off.task p).setPrio prio).onRq = true := by
      rw [task]
      exact onRq
    obtain ⟨next, result', refiled⟩ := changed.refiled erased ((off.task p).setPrio prio) (by
      rw [RootDomain.setTask, task]) on head
    rw [if_pos rfl, result, Option.bind_some]
    dsimp only
    rw [aside.changeTask runs, if_pos rfl, result', ← task]
    exact ⟨next, rfl, refiled.sound, refiled.lists⟩

/-- A task stays in its list when only the CPUs it may run on change. -/
theorem Sound.affine (sound : rd.Sound) {newMask : Finset (Fin n)} {rq : RunQueue τ}
    (task : info = { rd.task p with cpusAllowed := newMask, nrCpusAllowed := newMask.card })
    (queue : rq.Sound (Function.update rd.task p info) (rd.task p).cpu) (ready : rq.ready = (rd.rq (rd.task p).cpu).ready)
    (curr : rq.curr = (rd.rq (rd.task p).cpu).curr) : ((rd.setRq (rd.task p).cpu rq).setTask p info).Sound ∧
      ((rd.setRq (rd.task p).cpu rq).setTask p info).lists =
        { rd.lists with task := Function.update rd.task p info } := by
  have kept (q : τ) : (Function.update rd.task p info q).prio = (rd.task q).prio ∧
      (Function.update rd.task p info q).schedClass = (rd.task q).schedClass ∧
      (Function.update rd.task p info q).cpu = (rd.task q).cpu ∧
      (Function.update rd.task p info q).onRq = (rd.task q).onRq := by
    by_cases here : q = p
    · rw [here, Function.update_self, task]
      exact ⟨rfl, rfl, rfl, rfl⟩
    · rw [Function.update_of_ne here]
      exact ⟨rfl, rfl, rfl, rfl⟩
  have same : (rd.setRq (rd.task p).cpu rq).lists = rd.lists := lists_setRq_of_curr ready curr
  have ready' (j : Fin n) : ((rd.setRq (rd.task p).cpu rq).rq j).ready = (rd.rq j).ready :=
    congrFun (congrArg ReadyLists.ready same) j
  have curr' (j : Fin n) : ((rd.setRq (rd.task p).cpu rq).rq j).curr = (rd.rq j).curr :=
    congrFun (congrArg ReadyLists.curr same) j
  refine ⟨⟨?_, fun q realTime => ?_, fun j => ?_, fun q realTime => ?_⟩, ?_⟩
  · refine forall_setRq (P := fun j rq => rq.Sound (Function.update rd.task p info) j) queue fun j other => ?_
    refine (sound.rq j).congr fun q member => ?_
    have apart : q ≠ p := fun same => other (same ▸ (sound.mem_ready.mp member).2.2.symm)
    rw [Function.update_of_ne apart]
    exact ⟨rfl, rfl, rfl, rfl⟩
  · obtain ⟨_, schedClass, cpu, onRq⟩ := kept q
    show (Function.update rd.task p info q).onRq = true ↔
      q ∈ ((rd.setRq (rd.task p).cpu rq).rq (Function.update rd.task p info q).cpu).ready
    rw [onRq, cpu, ready']
    exact sound.filed q (schedClass.symm.trans realTime)
  · show (Function.update rd.task p info ((rd.setRq (rd.task p).cpu rq).rq j).curr).cpu = j
    rw [(kept _).2.2.1, curr']
    exact sound.curr j
  · obtain ⟨prio, schedClass, _⟩ := kept q
    show (Function.update rd.task p info q).prio < maxRtPrio
    rw [prio]
    exact sound.prio q (schedClass.symm.trans realTime)
  · exact congrArg (fun a : ReadyLists n τ => { a with task := Function.update rd.task p info }) same

theorem Sound.setCpusAllowed (sound : rd.Sound) (p : τ) (newMask : Finset (Fin n)) :
    ∃ next, rd.setCpusAllowed p newMask = some next ∧ next.Sound ∧ next.lists = { rd.lists with
      task := Function.update rd.task p { rd.task p with cpusAllowed := newMask, nrCpusAllowed := newMask.card } } := by
  rw [RootDomain.setCpusAllowed]
  by_cases realTime : (rd.task p).schedClass = .rt
  · obtain ⟨rq, result, queue, ready, rest⟩ := (sound.rq (rd.task p).cpu).setCpusAllowedRt newMask
      (sound.filed p realTime) (sound.prio p realTime) rfl
    rw [if_pos realTime, result]
    exact ⟨_, rfl, sound.affine rfl queue ready rest.curr⟩
  · have queue : (rd.rq (rd.task p).cpu).Sound (Function.update rd.task p
        { rd.task p with cpusAllowed := newMask, nrCpusAllowed := newMask.card }) (rd.task p).cpu :=
      (sound.rq (rd.task p).cpu).congr fun q member => by
        have apart : q ≠ p := fun same => realTime (same ▸ (sound.mem_ready.mp member).2.1)
        rw [Function.update_of_ne apart]
        exact ⟨rfl, rfl, rfl, rfl⟩
    have affine := sound.affine rfl queue rfl rfl
    rw [setRq_eq_self] at affine
    rw [if_neg realTime]
    exact ⟨_, rfl, affine⟩

theorem Sound.migrateTask (sound : rd.Sound) {src : Fin n} (idle : (rd.rq src).curr ≠ p) (dest : Fin n) :
    ∃ next, rd.migrateTask p src dest = some next ∧ next.Sound ∧ (next.lists = rd.lists ∨
      dest ∈ (rd.task p).cpusAllowed ∧ (rd.task p).cpu = src ∧
        next.lists = rd.lists.refile p ((rd.task p).setTaskCpu dest) false) := by
  rw [RootDomain.migrateTask]
  split_ifs with moves
  · obtain ⟨here, allowed, onRq⟩ := moves
    obtain ⟨next, result, refiled⟩ := sound.moveTask onRq (by rwa [here]) dest
    exact ⟨next, result, refiled.sound, .inr ⟨allowed, here, refiled.lists⟩⟩
  · exact ⟨rd, rfl, sound, .inl rfl⟩

/-! ## Pushing and pulling -/

theorem Sound.pickNextPushableTask (sound : rd.Sound) (i : Fin n) :
    rd.pickNextPushableTask i = some (rd.rq i).pushableTasks.head? := by
  rw [RootDomain.pickNextPushableTask]
  cases offered : (rd.rq i).pushableTasks with
  | nil => rfl
  | cons p rest =>
    obtain ⟨waits, idle, migratory⟩ := (sound.rq i).eligible p (by simp [offered])
    obtain ⟨onRq, realTime, cpu⟩ := sound.mem_ready.mp waits
    exact if_pos ⟨cpu, idle, migratory, onRq, sound.prio p realTime⟩

/-- A task has gone to the head of the list of another CPU. -/
structure Shifted (p : τ) (dest : Fin n) (rd next : RootDomain n τ) : Prop where
  sound : next.Sound
  task : next.task = Function.update rd.task p ((rd.task p).setTaskCpu dest)
  gained : (next.rq dest).ready = p :: (rd.rq dest).ready
  lost : ∀ j, j ≠ dest → (next.rq j).ready = (rd.rq j).ready.erase p
  pushableTasks : ∀ j, j ≠ dest → (next.rq j).pushableTasks = (rd.rq j).pushableTasks.erase p
  curr : ∀ j, (next.rq j).curr = (rd.rq j).curr
  online : ∀ j, (next.rq j).online = (rd.rq j).online
  needResched : ∀ j, (rd.rq j).needResched = true → (next.rq j).needResched = true

theorem Refiled.shifted (refiled : Refiled p ((rd.task p).setTaskCpu dest) false rd next) (sound : rd.Sound)
    (waits : p ∈ (rd.rq src).ready) (apart : dest ≠ src) (urgent : (rd.task p).prio < (rd.rq dest).highestPrioCurr) :
    Shifted p dest rd next := by
  obtain ⟨onRq, realTime, here⟩ := sound.mem_ready.mp waits
  have absent : p ∉ (rd.rq dest).ready := fun member => apart ((sound.mem_ready.mp member).2.2.symm.trans here)
  have ready (j : Fin n) := congrFun (congrArg ReadyLists.ready refiled.lists) j
  have prio (q : τ) : (Function.update rd.task p ((rd.task p).setTaskCpu dest) q).prio = (rd.task q).prio := by
    by_cases same : q = p
    · rw [same, Function.update_self]
      rfl
    · rw [Function.update_of_ne same]
  refine ⟨refiled.sound, congrArg ReadyLists.task refiled.lists, (ready dest).trans ?_, fun j other => ?_,
    fun j other => refiled.pushableTasks j other, fun j => (refiled.rest j).curr, fun j => (refiled.rest j).online,
    fun j => (refiled.rest j).needResched.trans⟩
  · -- It is more urgent than all the others there.
    have first : ∀ q ∈ (rd.rq dest).ready, (rd.task p).prio < (rd.task q).prio := fun q member =>
      Nat.lt_of_lt_of_le urgent (sound.highest_le member)
    refine (if_pos ⟨onRq, realTime, rfl⟩).trans ?_
    rw [show rd.lists.task = rd.task from rfl, place_congr prio, show rd.lists.ready dest = (rd.rq dest).ready from rfl,
      List.erase_of_not_mem absent]
    exact insertBehind_eq_cons first
  · exact (ready j).trans (if_neg fun all => other all.2.2.symm)

/-- What a task is moved for: it goes where it is the most urgent one. -/
theorem Sound.moved (sound : rd.Sound) (onRq : (rd.task p).onRq = true) (here : (rd.task p).cpu = src)
    (idle : (rd.rq src).curr ≠ p) (allowed : dest ∈ (rd.task p).cpusAllowed) (apart : dest ≠ src)
    (urgent : (rd.task p).prio < (rd.rq dest).highestPrioCurr) : ∃ next, rd.moveTask p dest = some next ∧
      Refiled p ((rd.task p).setTaskCpu dest) false rd next ∧ rd.lists.Moved src dest next.lists := by
  obtain ⟨next, result, refiled⟩ := sound.moveTask onRq (by rwa [here]) dest
  refine ⟨next, result, refiled, p, onRq, here, idle, allowed, apart, fun q member => ?_, refiled.lists⟩
  exact Nat.lt_of_lt_of_le urgent (sound.highest_le member)

/-- So is one where a task is not offered any more. -/
theorem Sound.withdraw (sound : rd.Sound) (i : Fin n) (p : τ) :
    (rd.setRq i ((rd.rq i).dequeuePushableTask p)).Sound ∧
      (rd.setRq i ((rd.rq i).dequeuePushableTask p)).lists = rd.lists :=
  ⟨sound.setRq ((sound.rq i).dequeuePushableTask p) (fun _ => Iff.rfl) (sound.curr i), lists_setRq_of_curr rfl rfl⟩

theorem Shifted.resched (shifted : Shifted p dest rd next) :
    Shifted p dest rd (next.setRq dest (next.rq dest).resched) where
  sound := (shifted.sound.resched dest).1
  task := shifted.task
  gained := by
    rw [setRq_self]
    exact shifted.gained
  lost j other := by
    rw [setRq_of_ne _ other]
    exact shifted.lost j other
  pushableTasks j other := by
    rw [setRq_of_ne _ other]
    exact shifted.pushableTasks j other
  curr := forall_setRq (P := fun j rq => rq.curr = (rd.rq j).curr) (shifted.curr dest) fun j _ => shifted.curr j
  online := forall_setRq (P := fun j rq => rq.online = (rd.rq j).online) (shifted.online dest) fun j _ => shifted.online j
  needResched j set := by
    by_cases here : j = dest
    · rw [here, setRq_self]
      rfl
    · rw [setRq_of_ne _ here]
      exact shifted.needResched j set

theorem Sound.pushTo (sound : rd.Sound) (onRq : (rd.task p).onRq = true)
    (here : (rd.task p).cpu = src) (idle : (rd.rq src).curr ≠ p) (allowed : dest ∈ (rd.task p).cpusAllowed)
    (apart : dest ≠ src) (urgent : (rd.task p).prio < (rd.rq dest).highestPrioCurr) : ∃ m,
      rd.pushTo p dest = some (m.setRq dest (m.rq dest).resched) ∧ Refiled p ((rd.task p).setTaskCpu dest) false rd m ∧
        rd.lists.Moved src dest (m.setRq dest (m.rq dest).resched).lists := by
  obtain ⟨m, result, refiled, move⟩ := sound.moved onRq here idle allowed apart urgent
  rw [RootDomain.pushTo, result, Option.map_some]
  exact ⟨m, rfl, refiled, by rwa [(refiled.sound.resched dest).2]⟩

/-- What `push_rt_task` does when it keeps the lock. -/
inductive PushRound (platform : Platform n) (thisCpu i : Fin n) (rd : RootDomain n τ) : RootDomain n τ → Bool → Prop where
  | done : (rd.rq i).overloaded = false ∨ (rd.rq i).pushableTasks = [] → PushRound platform thisCpu i rd rd false
  | slipped {p : τ} : (rd.rq i).pushableTasks.head? = some p → (rd.task p).prio < (rd.task (rd.rq i).curr).prio →
      PushRound platform thisCpu i rd (rd.setRq i (rd.rq i).resched) false
  | withdrawn {p : τ} {rest : List τ} : (rd.rq i).pushableTasks = p :: rest →
      rd.findLockLowestRq platform thisCpu p i = none →
      PushRound platform thisCpu i rd (rd.setRq i ((rd.rq i).dequeuePushableTask p)) true
  | pushed {p : τ} {rest : List τ} {dest : Fin n} {next : RootDomain n τ} : (rd.rq i).pushableTasks = p :: rest →
      dest ∈ (rd.task p).cpusAllowed → dest ≠ i → (rd.task p).prio < (rd.rq dest).highestPrioCurr →
      Shifted p dest rd next → (next.rq dest).needResched = true → rd.lists.Moved i dest next.lists →
      PushRound platform thisCpu i rd next true

theorem Sound.pushRound (sound : rd.Sound) (platform : Platform n) (thisCpu i : Fin n) :
    ∃ next again, rd.pushRtTask platform thisCpu i = some (next, again) ∧ PushRound platform thisCpu i rd next again := by
  rw [RootDomain.pushRtTask, sound.pickNextPushableTask]
  split_ifs with overloaded
  · exact ⟨rd, false, rfl, .done (.inl overloaded)⟩
  · cases offered : (rd.rq i).pushableTasks with
    | nil => exact ⟨rd, false, rfl, .done (.inr offered)⟩
    | cons p rest =>
      obtain ⟨waits, idle, _⟩ := (sound.rq i).eligible p (by simp [offered])
      obtain ⟨onRq, _, here⟩ := sound.mem_ready.mp waits
      dsimp only [List.head?_cons]
      rw [if_neg (Ne.symm idle)]
      split_ifs with slipped
      · exact ⟨_, false, rfl, .slipped (congrArg List.head? offered) slipped⟩
      · cases found : rd.findLockLowestRq platform thisCpu p i with
        | none => exact ⟨_, true, rfl, .withdrawn offered found⟩
        | some lowest =>
          obtain ⟨allowed, apart, urgent⟩ := findLockLowestRq_spec found
          obtain ⟨m, result, refiled, move⟩ := sound.pushTo onRq here idle allowed apart urgent
          have shifted := (refiled.shifted sound waits apart urgent).resched
          dsimp only
          rw [result]
          refine ⟨_, true, rfl, .pushed offered allowed apart urgent shifted ?_ move⟩
          rw [setRq_self]
          rfl

theorem Sound.pushRtTask (sound : rd.Sound) (platform : Platform n) (thisCpu i : Fin n) :
    ∃ next again, rd.pushRtTask platform thisCpu i = some (next, again) ∧ next.Sound ∧
      (next.lists = rd.lists ∨ ∃ dest, rd.lists.Moved i dest next.lists) := by
  obtain ⟨next, again, result, round⟩ := sound.pushRound platform thisCpu i
  refine ⟨next, again, result, ?_⟩
  cases round with
  | done => exact ⟨sound, .inl rfl⟩
  | slipped => exact (sound.resched i).imp_right .inl
  | withdrawn => exact (sound.withdraw i _).imp_right .inl
  | pushed _ _ _ _ shifted _ move => exact ⟨shifted.sound, .inr ⟨_, move⟩⟩

/-- After the lock was let go of, nothing is known of the task but what is checked again. -/
theorem Sound.pushRelocked (sound : rd.Sound) {lowest : Fin n} (apart : lowest ≠ i) (p : τ) :
    ∃ next, rd.pushRelocked i p lowest = some next ∧ next.Sound ∧
      (next.lists = rd.lists ∨ ∃ dest, rd.lists.Moved i dest next.lists) := by
  rw [RootDomain.pushRelocked]
  split_ifs with shifted urgent
  · exact ⟨rd, rfl, sound, .inl rfl⟩
  · simp only [not_or, not_not, Bool.not_eq_false] at shifted
    obtain ⟨cpu, allowed, idle, onRq⟩ := shifted
    obtain ⟨m, result, refiled, move⟩ := sound.pushTo onRq cpu idle allowed apart urgent
    exact ⟨_, result, (refiled.sound.resched lowest).1, .inr ⟨lowest, move⟩⟩
  · exact ⟨rd, rfl, sound, .inl rfl⟩

theorem Sound.pushGivenUp (sound : rd.Sound) (i : Fin n) (p : τ) :
    ∃ next, rd.pushGivenUp i p = some next ∧ next.Sound ∧ next.lists = rd.lists := by
  rw [RootDomain.pushGivenUp, sound.pickNextPushableTask, Option.map_some]
  refine ⟨_, rfl, ?_⟩
  split_ifs
  · exact sound.withdraw i p
  · exact ⟨sound, rfl⟩

theorem Sound.pickNextHighestTaskRt (sound : rd.Sound) {thisCpu cpu : Fin n}
    (picked : (rd.rq cpu).pickNextHighestTaskRt rd.task thisCpu = some p) : p ∈ (rd.rq cpu).ready ∧
      (rd.rq cpu).curr ≠ p ∧ thisCpu ∈ (rd.task p).cpusAllowed := by
  rw [RunQueue.pickNextHighestTaskRt, (sound.rq cpu).active.find_eq] at picked
  have passes : pickRtTask rd.task (rd.rq cpu) thisCpu p = true := List.find?_some picked
  obtain ⟨idle, allowed, _⟩ := of_decide_eq_true passes
  exact ⟨List.mem_of_find?_eq_some picked, idle, allowed⟩

/-- What an iteration of `pull_rt_task` does. -/
inductive PullRound (thisCpu cpu : Fin n) (rd : RootDomain n τ) : RootDomain n τ → Bool → Prop where
  | skip : PullRound thisCpu cpu rd rd false
  | pulled {p : τ} {next : RootDomain n τ} : p ∈ (rd.rq cpu).ready → (rd.rq cpu).curr ≠ p →
      thisCpu ∈ (rd.task p).cpusAllowed → thisCpu ≠ cpu → (rd.task p).prio < (rd.rq thisCpu).highestPrioCurr →
      (rd.task (rd.rq cpu).curr).prio ≤ (rd.task p).prio → 1 < (rd.rq cpu).rtNrRunning →
      Shifted p thisCpu rd next → rd.lists.Moved cpu thisCpu next.lists → PullRound thisCpu cpu rd next true

theorem Sound.pullRelockedRound (sound : rd.Sound) {thisCpu cpu : Fin n} (apart : thisCpu ≠ cpu) :
    ∃ next pulled, rd.pullRelocked thisCpu cpu = some (next, pulled) ∧ PullRound thisCpu cpu rd next pulled := by
  rw [RootDomain.pullRelocked]
  by_cases alone : (rd.rq cpu).rtNrRunning ≤ 1
  · rw [if_pos alone]
    exact ⟨rd, false, rfl, .skip⟩
  · rw [if_neg alone]
    cases picked : (rd.rq cpu).pickNextHighestTaskRt rd.task thisCpu with
    | none => exact ⟨rd, false, rfl, .skip⟩
    | some p =>
      obtain ⟨waits, idle, allowed⟩ := sound.pickNextHighestTaskRt picked
      obtain ⟨onRq, _, here⟩ := sound.mem_ready.mp waits
      dsimp only
      split_ifs with urgent warn slipped
      · exact absurd warn (by simp [idle, onRq])
      · exact ⟨rd, false, rfl, .skip⟩
      · obtain ⟨next, result, refiled, move⟩ := sound.moved onRq here idle allowed apart urgent
        have shifted := refiled.shifted sound waits apart urgent
        rw [result]
        exact ⟨next, true, rfl,
          .pulled waits idle allowed apart urgent (Nat.le_of_not_lt slipped) (Nat.lt_of_not_le alone) shifted move⟩
      · exact ⟨rd, false, rfl, .skip⟩

theorem Sound.pullRound (sound : rd.Sound) (thisCpu cpu : Fin n) :
    ∃ next pulled, rd.pullFrom thisCpu cpu = some (next, pulled) ∧ PullRound thisCpu cpu rd next pulled := by
  rw [RootDomain.pullFrom]
  split_ifs with skip
  · exact ⟨rd, false, rfl, .skip⟩
  · exact sound.pullRelockedRound (not_or.mp skip).1

theorem Sound.pulled (sound : rd.Sound) {thisCpu cpu : Fin n} {pulled : Bool}
    (round : PullRound thisCpu cpu rd next pulled) :
    next.Sound ∧ (next.lists = rd.lists ∨ rd.lists.Moved cpu thisCpu next.lists) := by
  cases round with
  | skip => exact ⟨sound, .inl rfl⟩
  | pulled _ _ _ _ _ _ _ shifted move => exact ⟨shifted.sound, .inr move⟩

/-! ## Runs -/

/-- Every event that may happen does, and the lists do the same. -/
theorem Sound.perform (sound : rd.Sound) (platform : Platform n) {e : RtEvent n τ} (allowed : e.Allowed rd) :
    ∃ next, e.perform platform rd = some next ∧ next.Sound ∧ rd.lists.Step e next.lists := by
  cases e with
  | wakeUp p cpu =>
    obtain ⟨next, result, refiled⟩ := sound.tryToWakeUp allowed.1 allowed.2 cpu
    exact ⟨next, result, refiled.sound, refiled.lists⟩
  | sleep i => exact sound.goToSleep i
  | schedule i stop other throttled => exact sound.schedule allowed throttled
  | requeue p head => exact ⟨_, rfl, sound.requeueTask p head⟩
  | setprio p prio => exact sound.changePrio p prio _
  | setscheduler p prio => exact sound.changePrio p prio false
  | setCpusAllowed p newMask => exact sound.setCpusAllowed p newMask
  | migrate p src dest => exact sound.migrateTask allowed dest
  | push thisCpu i =>
    obtain ⟨next, again, result, sound', lists⟩ := sound.pushRtTask platform thisCpu i
    exact ⟨next, congrArg (Option.map Prod.fst) result, sound', lists⟩
  | pushRelocked i p lowest => exact sound.pushRelocked allowed p
  | pushGivenUp i p => exact sound.pushGivenUp i p
  | pull thisCpu cpu =>
    obtain ⟨next, pulled, result, round⟩ := sound.pullRound thisCpu cpu
    exact ⟨next, congrArg (Option.map Prod.fst) result, sound.pulled round⟩
  | pullRelocked thisCpu cpu =>
    obtain ⟨next, pulled, result, round⟩ := sound.pullRelockedRound allowed
    exact ⟨next, congrArg (Option.map Prod.fst) result, sound.pulled round⟩
  | online i => exact ⟨_, rfl, sound.setRqOnline i⟩
  | offline i => exact ⟨_, rfl, sound.setRqOffline i⟩

theorem Sound.step (sound : rd.Sound) {platform : Platform n} {e : RtEvent n τ} (step : RtStep platform rd e next) :
    next.Sound ∧ rd.lists.Step e next.lists := by
  obtain ⟨result, performed, spec⟩ := sound.perform platform step.1
  cases step.2.symm.trans performed
  exact spec

theorem Sound.run (sound : rd.Sound) {platform : Platform n} {events : List (RtEvent n τ)}
    (run : Run (RtStep platform) rd events next) : next.Sound ∧ Run ReadyLists.Step rd.lists events next.lists := by
  induction run with
  | nil => exact ⟨sound, .nil _⟩
  | cons first _ ih =>
    obtain ⟨sound', step⟩ := sound.step first
    obtain ⟨final, rest⟩ := ih sound'
    exact ⟨final, .cons step rest⟩

end

end RootDomain

end Cs544.Sched
