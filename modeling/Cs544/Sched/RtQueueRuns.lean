import Mathlib.Data.Fintype.Basic
import Mathlib.Data.List.GetD
import Cs544.Sched.ReadyLists

/-! Runs of the run queues of real-time tasks.

From boot on the run queues stay sound and refine the ready lists. Tasks of one priority are
served in the order in which they came.
-/

set_option autoImplicit false

namespace Cs544.Sched

open Cs544.Library RunQueue RootDomain

variable {n : Nat} {τ : Type}

/-- A system that boots: no real-time task is on a run queue, and each idle task is at home. -/
structure Booting (task : τ → TaskStruct n) (idle : Fin n → τ) : Prop where
  off : ∀ p, (task p).schedClass = .rt → (task p).onRq = false ∧ (task p).prio < maxRtPrio
  home : ∀ i, (task (idle i)).cpu = i

variable {task : τ → TaskStruct n} {idle : Fin n → τ}

theorem formed_empty (task : τ → TaskStruct n) :
    (BucketQueue.empty maxRtPrio).WellFormed (fun p => (task p).prio) maxRtPrio :=
  BucketQueue.wellFormed_empty

theorem sound_initRtRq (i : Fin n) (p : τ) : (RunQueue.initRtRq p).Sound task i where
  active := formed_empty task
  mine q member := by
    rw [ready, RunQueue.initRtRq, BucketQueue.toList_empty] at member
    cases member
  rtNrRunning := by
    rw [ready, RunQueue.initRtRq, BucketQueue.toList_empty]
    rfl
  highestPrioCurr := ((formed_empty task).firstBit_eq_bound.mpr BucketQueue.toList_empty).symm
  rtNrTotal := by
    rw [ready, RunQueue.initRtRq, BucketQueue.toList_empty]
    rfl
  rtNrMigratory := by
    rw [ready, RunQueue.initRtRq, BucketQueue.toList_empty]
    rfl
  overloaded := rfl
  rtoMask := rfl
  rtoCount := rfl
  cpupri := rfl
  sorted := List.Pairwise.nil
  nodup := List.nodup_nil
  eligible q member := nomatch member

theorem Booting.sound (booting : Booting task idle) : (schedInit task idle).Sound where
  rq i := sound_initRtRq i (idle i)
  filed p realTime := by
    show (task p).onRq = true ↔ p ∈ BucketQueue.toList maxRtPrio (.empty maxRtPrio)
    rw [(booting.off p realTime).1, BucketQueue.toList_empty]
    exact iff_of_false Bool.false_ne_true List.not_mem_nil
  curr := booting.home
  prio p realTime := (booting.off p realTime).2

section
variable [DecidableEq τ] {platform : Platform n} {events : List (RtEvent n τ)} {rd : RootDomain n τ}

/-- Whatever the CPUs do in turn, each real-time task that may run is on the run queue of its
CPU and of no other, bitmap, counts and what was announced to the root domain are right, and no
`BUG_ON` or `WARN_ON` is hit. -/
theorem run_queues_sound (booting : Booting task idle) (run : Run (RtStep platform) (schedInit task idle) events rd) :
    rd.Sound ∧ ∀ e : RtEvent n τ, e.Allowed rd → (e.perform platform rd).isSome := by
  obtain ⟨sound, _⟩ := booting.sound.run run
  refine ⟨sound, fun e allowed => ?_⟩
  obtain ⟨next, performed, _⟩ := sound.perform platform allowed
  rw [performed]
  rfl

/-- CPUs without domains, and the CPUs of the least urgent priority that was announced. -/
def flatPlatform (n : Nat) : Platform n where
  domains _ := []
  cpupriFind announced prio allowed :=
    let fits := allowed.filter fun j => prio < (announced j).getD 0
    let mask := fits.filter fun j => ∀ k ∈ fits, (announced k).getD 0 ≤ (announced j).getD 0
    if mask.Nonempty then some mask else none
  cpupriFind_spec announced prio allowed mask found := by
    dsimp only at found
    split_ifs at found with nonempty
    cases found
    exact ⟨nonempty, (Finset.filter_subset ..).trans (Finset.filter_subset ..)⟩

def cpu0 : Fin 2 := ⟨0, Nat.zero_lt_two⟩

def cpu1 : Fin 2 := ⟨1, Nat.one_lt_two⟩

/-- The idle tasks of two CPUs, and some real-time tasks. -/
def fewTasks (p : Nat) : TaskStruct 2 where
  prio := [140, 140, 10, 20, 30, 25, 50, 50].getD p 0
  schedClass := if p < 2 then .idle else .rt
  cpu := if p = 1 then cpu1 else cpu0
  onRq := false
  cpusAllowed := Finset.univ
  nrCpusAllowed := 2

def fewTasksIdle (i : Fin 2) : Nat := i

theorem booting_fewTasks : Booting fewTasks fewTasksIdle where
  off p realTime := by
    refine ⟨rfl, ?_⟩
    by_cases few : p < 8
    · exact (by decide : ∀ p < 8, (fewTasks p).schedClass = .rt → (fewTasks p).prio < maxRtPrio) p few realTime
    · have none' : (fewTasks p).prio = 0 := List.getD_eq_default _ _ (Nat.le_of_not_lt few)
      rw [none']
      decide
  home := by decide

/-- On both CPUs a real-time task runs, and two more wait on the first one. -/
def crowded : RootDomain 2 Nat :=
  let rd := ((schedInit fewTasks fewTasksIdle).setRqOnline cpu0).setRqOnline cpu1
  ((rd.tryToWakeUp 2 cpu0).bind fun rd => (rd.schedule cpu0 none 0 false).bind fun rd =>
    (rd.tryToWakeUp 5 cpu1).bind fun rd => (rd.schedule cpu1 none 1 false).bind fun rd =>
      (rd.tryToWakeUp 3 cpu0).bind fun rd => rd.tryToWakeUp 4 cpu0).getD rd

def crowdedEvents : List (RtEvent 2 Nat) :=
  [.online cpu0, .online cpu1, .wakeUp 2 cpu0, .schedule cpu0 none 0 false, .wakeUp 5 cpu1, .schedule cpu1 none 1 false,
    .wakeUp 3 cpu0, .wakeUp 4 cpu0]

theorem run_crowded : Run (RtStep (flatPlatform 2)) (schedInit fewTasks fewTasksIdle) crowdedEvents crowded := by
  have idles (rd : RootDomain 2 Nat) (i : Fin 2) (idle : Nat)
      (here : (rd.task idle).schedClass ≠ .rt ∧ (rd.task idle).cpu = i) :
      RtEvent.Allowed rd (.schedule i none idle false) := by
    rintro p (rfl | stop)
    · exact here
    · cases stop
  exact .cons ⟨trivial, rfl⟩ (.cons ⟨trivial, rfl⟩ (.cons ⟨⟨rfl, by decide⟩, rfl⟩ (.cons ⟨idles _ _ _ (by decide), rfl⟩
    (.cons ⟨⟨rfl, by decide⟩, rfl⟩ (.cons ⟨idles _ _ _ (by decide), rfl⟩ (.cons ⟨⟨rfl, by decide⟩, rfl⟩
      (.cons ⟨⟨rfl, by decide⟩, rfl⟩ (.nil _))))))))

/-- The second CPU takes one of them, and the first one has no CPU for the other. -/
theorem run_queues_sound_crowded : ∃ rd : RootDomain 2 Nat,
    (rd.rq cpu0).ready = [2, 4] ∧ (rd.rq cpu1).ready = [3, 5] ∧ (rd.rq cpu0).pushableTasks = [] ∧ rd.Sound ∧
      ∀ e : RtEvent 2 Nat, e.Allowed rd → (e.perform (flatPlatform 2) rd).isSome := by
  have moves := run_crowded.append (.cons (show RtStep (flatPlatform 2) crowded (.pull cpu1 cpu0) _ from ⟨trivial, rfl⟩)
    (.cons (show RtStep (flatPlatform 2) _ (.push cpu0 cpu0) _ from ⟨trivial, rfl⟩) (.nil _)))
  exact ⟨_, by decide, by decide, by decide, run_queues_sound booting_fewTasks moves⟩

/-- The run queues do what lists of tasks would do that are sorted by priority, in the same
order of events. -/
theorem ready_lists_refined (booting : Booting task idle)
    (run : Run (RtStep platform) (schedInit task idle) events rd) :
    Run ReadyLists.Step (schedInit task idle).lists events rd.lists :=
  (booting.sound.run run).2

/-- Two tasks of one priority wait. -/
def bothWoken : RootDomain 2 Nat :=
  let rd := schedInit fewTasks fewTasksIdle
  ((rd.tryToWakeUp 6 cpu0).bind (·.tryToWakeUp 7 cpu0)).getD rd

theorem run_bothWoken : Run (RtStep (flatPlatform 2)) (schedInit fewTasks fewTasksIdle) [.wakeUp 6 cpu0, .wakeUp 7 cpu0]
    bothWoken :=
  .cons ⟨⟨rfl, by decide⟩, rfl⟩ (.cons ⟨⟨rfl, by decide⟩, rfl⟩ (.nil _))

theorem ready_lists_refined_bothWoken : bothWoken.lists.ready cpu0 = [6, 7] ∧
    Run ReadyLists.Step (schedInit fewTasks fewTasksIdle).lists [.wakeUp 6 cpu0, .wakeUp 7 cpu0] bothWoken.lists :=
  ⟨by decide, ready_lists_refined booting_fewTasks run_bothWoken⟩

/-! ## First come, first served -/

/-- The tasks of its priority that are ahead of a task. -/
def ReadyLists.ahead (a : ReadyLists n τ) (i : Fin n) (p : τ) : List τ :=
  ((a.ready i).takeWhile (· ≠ p)).filter fun q => (a.task q).prio = (a.task p).prio

/-- An event that does not put a task back, and puts no other one at the head of its queue. -/
def RtEvent.Fair (rd : RootDomain n τ) (p : τ) : RtEvent n τ → Prop
  | requeue q head => q ≠ p ∧
      (head = true → (rd.task q).cpu = (rd.task p).cpu → (rd.task q).prio ≠ (rd.task p).prio)
  | setprio q prio => q ≠ p ∧
      ((rd.task q).prio < prio → (rd.task q).cpu = (rd.task p).cpu → prio ≠ (rd.task p).prio)
  | setscheduler q _ => q ≠ p
  | migrate q _ _ => q ≠ p
  | _ => True

/-- A step while a task waits on a CPU. -/
structure Awaits (platform : Platform n) (p : τ) (i : Fin n) (rd : RootDomain n τ) (e : RtEvent n τ)
    (next : RootDomain n τ) : Prop where
  step : RtStep platform rd e next
  waits : p ∈ (rd.rq i).ready
  stays : p ∈ (next.rq i).ready
  fair : e.Fair rd p

variable {next : RootDomain n τ} {e : RtEvent n τ} {p q : τ} {i : Fin n} {info : TaskStruct n}
  {head : Bool}

theorem refile_task_self (a : ReadyLists n τ) : (a.refile p info head).task p = info := Function.update_self ..

/-- Nobody gets ahead of a task when another one is refiled. -/
theorem ahead_refile {a : ReadyLists n τ} (sorted : (a.ready i).Pairwise fun p q => (a.task p).prio ≤ (a.task q).prio)
    (nodup : (a.ready i).Nodup) (member : p ∈ a.ready i) (apart : q ≠ p)
    (tail : head = true → info.cpu = i → info.prio ≠ (a.task p).prio) :
    ((a.refile q info head).ahead i p).Sublist (a.ahead i p) := by
  obtain ⟨front, back, split⟩ := List.append_of_mem member
  rw [split] at sorted nodup
  obtain ⟨outside, distinct⟩ := List.nodup_cons.mp (List.nodup_middle.mp nodup)
  have absent : p ∉ front := fun inside => outside (List.mem_append_left back inside)
  obtain ⟨back', erased⟩ : ∃ back', (a.ready i).erase q = front.erase q ++ p :: back' := by
    rw [split]
    by_cases inside : q ∈ front
    · exact ⟨back, List.erase_append_left _ inside⟩
    · refine ⟨back.erase q, ?_⟩
      rw [List.erase_append_right _ inside, List.erase_of_not_mem inside, List.erase_cons_tail (by simpa using Ne.symm apart)]
  have absent' : p ∉ front.erase q := fun inside => absent (List.mem_of_mem_erase inside)
  -- The tasks that stay keep their priorities.
  have kept : (front.erase q).filter (fun u => (Function.update a.task q info u).prio = (a.task p).prio) =
      (front.erase q).filter fun u => (a.task u).prio = (a.task p).prio := by
    refine List.filter_congr fun u inside => ?_
    have other : u ≠ q := ((distinct.sublist (List.sublist_append_left _ _)).mem_erase_iff.mp inside).1
    rw [Function.update_of_ne other]
  have fewer : ((front.erase q).filter fun u => (Function.update a.task q info u).prio = (a.task p).prio).Sublist
      (a.ahead i p) := by
    rw [kept, ReadyLists.ahead, split, takeWhile_ne absent]
    exact List.erase_sublist.filter _
  have self : Function.update a.task q info p = a.task p := Function.update_of_ne (Ne.symm apart) ..
  simp only [ReadyLists.ahead, ReadyLists.refile, erased, self] at fewer ⊢
  split_ifs with filed
  · -- A task gets ahead only with another priority.
    have placed (r : τ → τ → Prop) [DecidableRel r]
        (differs : (∃ u ∈ p :: front.erase q, r q u) → info.prio ≠ (a.task p).prio) :
        (((front.erase q ++ p :: back').orderedInsert r q).takeWhile (· ≠ p)).filter
          (fun u => (Function.update a.task q info u).prio = (a.task p).prio) =
        (front.erase q).filter fun u => (Function.update a.task q info u).prio = (a.task p).prio := by
      rcases takeWhile_orderedInsert (r := r) apart absent' with same | ⟨same, before⟩
      · rw [same]
      · rw [same, filter_orderedInsert]
        rw [Function.update_self]
        exact decide_eq_false (differs before)
    rw [place]
    split_ifs with first
    · rw [insertBefore, placed _ fun _ => tail first filed.2.2]
      exact fewer
    · rw [insertBehind, placed]
      · exact fewer
      · rintro ⟨u, inside, before⟩
        have least : (a.task u).prio ≤ (a.task p).prio := by
          rcases List.mem_cons.mp inside with rfl | inside
          · exact Nat.le_refl _
          · exact (List.pairwise_append.mp sorted).2.2 u (List.mem_of_mem_erase inside) p List.mem_cons_self
        have other : u ≠ q := by
          rintro rfl
          rw [Function.update_self] at before
          exact Nat.lt_irrefl _ before
        rw [Function.update_self, Function.update_of_ne other] at before
        omega
  · rw [takeWhile_ne absent']
    exact fewer

namespace RootDomain.Sound

theorem ahead_refile (sound : rd.Sound) (waits : p ∈ (rd.rq i).ready) (apart : q ≠ p)
    (tail : head = true → info.cpu = (rd.task p).cpu → info.prio ≠ (rd.task p).prio) :
    ((rd.lists.refile q info head).ahead i p).Sublist (rd.lists.ahead i p) :=
  Sched.ahead_refile (sound.rq i).active.sorted_toList (sound.rq i).ready_nodup waits apart
    fun atHead here => tail atHead (here.trans (sound.mem_ready.mp waits).2.2.symm)

/-- A task that stays on its CPU is not the one that is moved away. -/
theorem ahead_moved (sound : rd.Sound) (sound' : next.Sound) (waits : p ∈ (rd.rq i).ready)
    (stays : p ∈ (next.rq i).ready) {src dest : Fin n} (move : rd.lists.Moved src dest next.lists) :
    (next.lists.ahead i p).Sublist (rd.lists.ahead i p) := by
  obtain ⟨_, _, cpu⟩ := sound.mem_ready.mp waits
  obtain ⟨_, _, cpu'⟩ := sound'.mem_ready.mp stays
  obtain ⟨q, _, here, _, _, apart, _, lists⟩ := move
  have other : q ≠ p := by
    rintro rfl
    have gone := congrFun (congrArg ReadyLists.task lists) q
    rw [refile_task_self] at gone
    exact apart ((congrArg TaskStruct.cpu gone).symm.trans (cpu'.trans (cpu.symm.trans here)))
  rw [lists]
  exact sound.ahead_refile waits other nofun

end RootDomain.Sound

theorem ahead_step (sound : rd.Sound) (awaits : Awaits platform p i rd e next) :
    (next.lists.ahead i p).Sublist (rd.lists.ahead i p) := by
  obtain ⟨step, waits, stays, fair⟩ := awaits
  obtain ⟨sound', lists⟩ := sound.step step
  have onRq := (sound.mem_ready.mp waits).1
  have onRq' := (sound'.mem_ready.mp stays).1
  cases e with
  | wakeUp q cpu =>
    have other : q ≠ p := by
      rintro rfl
      rw [step.1.1] at onRq
      cases onRq
    rw [lists]
    exact sound.ahead_refile waits other nofun
  | sleep j =>
    have other : rd.lists.curr j ≠ p := by
      rintro rfl
      have gone := congrFun (congrArg ReadyLists.task lists) (rd.lists.curr j)
      rw [refile_task_self] at gone
      have off : (next.task (rd.lists.curr j)).onRq = false := congrArg TaskStruct.onRq gone
      rw [off] at onRq'
      cases onRq'
    rw [lists]
    exact sound.ahead_refile waits other nofun
  | schedule i stop other throttled =>
    rw [lists]
    exact List.Sublist.refl _
  | requeue q head =>
    rw [lists]
    exact sound.ahead_refile waits fair.1 fair.2
  | setprio q prio =>
    rw [lists]
    exact sound.ahead_refile waits fair.1 fun lowered => fair.2 (of_decide_eq_true lowered)
  | setscheduler q prio =>
    rw [lists]
    exact sound.ahead_refile waits fair nofun
  | setCpusAllowed q newMask =>
    have prio (u : τ) : (Function.update rd.lists.task q { rd.lists.task q with
        cpusAllowed := newMask, nrCpusAllowed := newMask.card } u).prio = (rd.lists.task u).prio := by
      by_cases here : u = q
      · rw [here, Function.update_self]
      · rw [Function.update_of_ne here]
    rw [lists]
    simp only [ReadyLists.ahead, prio]
    exact List.Sublist.refl _
  | migrate q src dest =>
    rcases lists with lists | ⟨_, _, lists⟩
    · rw [lists]
    · rw [lists]
      exact sound.ahead_refile waits fair nofun
  | push | pushRelocked =>
    rcases lists with lists | ⟨dest, move⟩
    · rw [lists]
    · exact sound.ahead_moved sound' waits stays move
  | pull | pullRelocked =>
    rcases lists with lists | move
    · rw [lists]
    · exact sound.ahead_moved sound' waits stays move
  | pushGivenUp | online | offline => rw [lists]

/-- While a real-time task waits on a CPU and is not put back itself, the tasks of its priority
that are ahead of it only become fewer, and when there is none left and nothing is more urgent,
it is the one that is picked. -/
theorem first_come_first_served (booting : Booting task idle)
    (run : Run (RtStep platform) (schedInit task idle) events rd) {later : List (RtEvent n τ)}
    (rest : Run (Awaits platform p i) rd later next) (member : p ∈ (rd.rq i).ready) :
    (next.lists.ahead i p).Sublist (rd.lists.ahead i p) ∧
      ((∀ q ∈ (next.rq i).ready, (next.task p).prio ≤ (next.task q).prio) → next.lists.ahead i p = [] →
        (next.rq i).pickNextRtEntity = some p) := by
  have sound := (booting.sound.run run).1
  clear run
  have kept : (next.lists.ahead i p).Sublist (rd.lists.ahead i p) ∧ next.Sound ∧ p ∈ (next.rq i).ready := by
    induction rest with
    | nil => exact ⟨List.Sublist.refl _, sound, member⟩
    | cons first _ ih =>
      obtain ⟨fewer, kept⟩ := ih first.stays (sound.step first.step).1
      exact ⟨fewer.trans (ahead_step sound first), kept⟩
  obtain ⟨fewer, sound', stays⟩ := kept
  refine ⟨fewer, fun urgent alone => ?_⟩
  obtain ⟨front, back, split⟩ := List.append_of_mem stays
  have nodup := (sound'.rq i).ready_nodup
  have sorted := (sound'.rq i).active.sorted_toList
  rw [← ready, split] at sorted
  rw [split] at nodup
  have absent : p ∉ front := fun inside =>
    (List.nodup_cons.mp (List.nodup_middle.mp nodup)).1 (List.mem_append_left back inside)
  rw [ReadyLists.ahead, show next.lists.ready i = front ++ p :: back from split, takeWhile_ne absent] at alone
  rw [(sound'.rq i).pickNextRtEntity, split]
  cases front with
  | nil => rfl
  | cons q rest =>
    -- A task before it has its priority, and would be ahead of it.
    have least := (List.pairwise_append.mp sorted).2.2 q List.mem_cons_self p List.mem_cons_self
    have same : (next.task q).prio = (next.task p).prio := Nat.le_antisymm least (urgent q (by simp [split]))
    exact absurd (decide_eq_true same) (List.filter_eq_nil_iff.mp alone q List.mem_cons_self)

/-- The first task yields to the second one. -/
theorem first_come_first_served_yield : bothWoken.lists.ahead cpu0 7 = [6] ∧
    ((bothWoken.requeueTask 6 false).rq cpu0).pickNextRtEntity = some 7 := by
  have yields : Awaits (flatPlatform 2) 7 cpu0 bothWoken (.requeue 6 false) (bothWoken.requeueTask 6 false) :=
    ⟨⟨trivial, rfl⟩, by decide, by decide, by decide, nofun⟩
  have served := first_come_first_served booting_fewTasks run_bothWoken (.cons yields (.nil _)) (by decide)
  exact ⟨by decide, served.2 (by decide) (by decide)⟩

end

end Cs544.Sched
