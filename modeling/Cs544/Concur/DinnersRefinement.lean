import Cs544.Concur.DinnersSafety

/-! The dinner list refines a sequential list.

A run is logged: every acquisition of `inserters_lock`, with the call the thread makes
while it holds it, and every `free`. Replaying the calls in the order of the acquisitions
gives the nodes of the list and the nodes that were freed.
-/

set_option autoImplicit false

namespace Cs544.Concur.Dinners

open Cs544.Library

/-! ## The sequential list -/

inductive Call where
  | addDinner (newDinner : Address)
  | cancelDinner (dinnerIndex : Int)
  deriving DecidableEq, Repr

/-- The dinners in their order, and those that were freed, the latest last. -/
structure Sequential where
  nodes : List Address
  freed : List Address
  deriving DecidableEq, Repr

/-- Append a node, or remove and free the one with the given number. There is no result when
there is no such node. -/
def Sequential.perform (list : Sequential) : Call → Option Sequential
  | .addDinner newDinner => some { list with nodes := list.nodes ++ [newDinner] }
  | .cancelDinner dinnerIndex =>
      if 1 ≤ dinnerIndex then
        match list.nodes[dinnerIndex.toNat - 1]? with
        | none => none
        | some node => some ⟨list.nodes.eraseIdx (dinnerIndex.toNat - 1), list.freed ++ [node]⟩
      else none

/-- `inserters_lock` was acquired. A deleter that finds no dinners calls nothing. -/
structure Acquisition (Thread : Type) where
  thread : Thread
  call : Option Call
  deriving DecidableEq, Repr

section
variable {Thread : Type}

/-- One acquisition after the other; the latest one is first. -/
def replay : List (Acquisition Thread) → Option Sequential
  | [] => some ⟨[], []⟩
  | acquisition :: earlier =>
      match acquisition.call with
      | none => replay earlier
      | some call => (replay earlier).bind (·.perform call)

/-! ## The log of a run -/

/-- The acquisitions and the freed nodes, the latest acquisition first. -/
structure Log (Thread : Type) where
  history : List (Acquisition Thread)
  freed : List Address
  deriving DecidableEq, Repr

variable [DecidableEq Thread]

/-- The call belongs to the latest acquisition of the thread. -/
def called (t : Thread) (call : Call) : List (Acquisition Thread) → List (Acquisition Thread)
  | [] => []
  | acquisition :: earlier =>
      if acquisition.thread = t then ⟨t, some call⟩ :: earlier else acquisition :: called t call earlier

/-- What a step of `t` from the given place adds to the log. -/
def Log.record (log : Log Thread) (t : Thread) : Pc → Log Thread
  | .lockInsert _ | .lockDelete => { log with history := ⟨t, none⟩ :: log.history }
  | .findFirst mine => { log with history := called t (.addDinner mine) log.history }
  | .cancelStart index => { log with history := called t (.cancelDinner index) log.history }
  | .free curr => { log with freed := log.freed ++ [curr] }
  | _ => log

def logOf : State Thread → List (Thread × Oracle) → Log Thread → Log Thread
  | _, [], log => log
  | s, label :: labels, log =>
      match step s label.1 label.2 with
      | none => log
      | some s' => logOf s' labels (log.record label.1 (s.pc label.1))

end

/-! ## Log and list -/

/-- How far the holder of `inserters_lock` is with its call: not begun, at the place where the
list will change, or done but for the `free`. -/
def Progress (earlier now : Option Sequential) (call : Option Call) (nodes freed : List Address) : Pc → Prop
  | .findFirst _ | .deleteTest | .lockDeleters | .deletePick | .cancelStart _ =>
      call = none ∧ earlier = some ⟨nodes, freed⟩
  | .lastTest mine _ | .lastNext mine _ | .linkFirst mine | .linkLast mine _ =>
      call = some (.addDinner mine) ∧ earlier = some ⟨nodes, freed⟩
  | .cancel index _ _ _ => call = some (.cancelDinner index) ∧ earlier = some ⟨nodes, freed⟩
  | .snip _ curr =>
      earlier = some ⟨nodes, freed⟩ ∧
        ∃ index : Int, call = some (.cancelDinner index) ∧ 1 ≤ index ∧ nodes[index.toNat - 1]? = curr
  | .unlink _ curr _ =>
      earlier = some ⟨nodes, freed⟩ ∧
        ∃ index : Int, call = some (.cancelDinner index) ∧ 1 ≤ index ∧ nodes[index.toNat - 1]? = some curr
  | .subRead curr | .subWrite curr _ | .free curr => now = some ⟨nodes, freed ++ [curr]⟩
  | _ => now = some ⟨nodes, freed⟩

variable {Thread : Type}

/-- The log replays to the list, up to the call that is under way. -/
structure Agrees (log : Log Thread) (nodes : List Address) (s : State Thread) : Prop where
  settled : s.insertersLock = none → replay log.history = some ⟨nodes, log.freed⟩
  pending : ∀ t, s.insertersLock = some t → ∃ call earlier, log.history = ⟨t, call⟩ :: earlier ∧
    Progress (replay earlier) (replay log.history) call nodes log.freed (s.pc t)

variable {log log' : Log Thread} {nodes nodes' : List Address} {s s' : State Thread} {t : Thread}
  {call : Option Call} {earlier : List (Acquisition Thread)} {p : Address}

namespace Agrees

theorem hold {pc : Pc} (holder : s'.insertersLock = some t) (history : log'.history = ⟨t, call⟩ :: earlier)
    (place : s'.pc t = pc) (progress : Progress (replay earlier) (replay log'.history) call nodes' log'.freed pc) :
    Agrees log' nodes' s' where
  settled free := by
    rw [holder] at free
    cases free
  pending u same := by
    obtain rfl : t = u := Option.some.inj (holder.symm.trans same)
    exact ⟨call, earlier, history, place ▸ progress⟩

theorem release (free : s'.insertersLock = none) (result : replay log'.history = some ⟨nodes', log'.freed⟩) :
    Agrees log' nodes' s' where
  settled _ := result
  pending u same := by
    rw [free] at same
    cases same

/-- A step of a thread that does not hold `inserters_lock`. -/
theorem bystander (agrees : Agrees log nodes s) (mutex : s'.insertersLock = s.insertersLock)
    (others : ∀ u, u ≠ t → s'.pc u = s.pc u) (outside : s.insertersLock ≠ some t) : Agrees log nodes s' where
  settled free := agrees.settled (mutex ▸ free)
  pending u holds := by
    rw [mutex] at holds
    have other : u ≠ t := by
      rintro rfl
      exact outside holds
    rw [others u other]
    exact agrees.pending u holds

end Agrees

theorem called_self [DecidableEq Thread] (call' : Call) :
    called t call' (⟨t, call⟩ :: earlier) = ⟨t, some call'⟩ :: earlier := by simp [called]

theorem not_holder {old : Pc} (inv : InvAt s nodes) (at' : s.pc t = old) (outside : old.locksInserters = false) :
    s.insertersLock ≠ some t := fun holds => by
  have inside := (inv.locks.inserters t).mp holds
  rw [at', outside] at inside
  cases inside

theorem Agrees.holder {old : Pc} (agrees : Agrees log nodes s) (inv : InvAt s nodes) (at' : s.pc t = old)
    (inside : old.locksInserters = true) :
    s.insertersLock = some t ∧ ∃ call earlier, log.history = ⟨t, call⟩ :: earlier ∧
      Progress (replay earlier) (replay log.history) call nodes log.freed old := by
  subst at'
  have holds := (inv.locks.inserters t).mpr inside
  exact ⟨holds, agrees.pending t holds⟩

/-! ## Steps -/

variable [DecidableEq Thread] {oracle : Oracle}

theorem follow_eq {goOn : Address → Option Address → Pc} (alive : s.live p = true) :
    s.follow t (some p) goOn = s.goto t (goOn p (s.next p)) := by
  rw [State.follow, if_pos alive]

section
variable (inv : InvAt s nodes) (agrees : Agrees log nodes s) (step' : step s t oracle = some s')
include inv agrees step'

theorem searcher_agrees (role : (s.pc t).reading = true ∨ s.pc t = .rdlock) :
    Agrees (log.record t (s.pc t)) (Pc.effect nodes (s.pc t)) s' := by
  cases at' : s.pc t with
  | rdlock | searchPick =>
    simp only [step, at'] at step'
    split at step'
    next =>
      cases step'
      exact agrees.bystander rfl (fun u other => goto_of_ne other) (not_holder inv at' rfl)
    next => cases step'
  | searchTest | findStart | found | rdunlock =>
    simp only [step, at'] at step'
    cases step'
    exact agrees.bystander rfl (fun u other => goto_of_ne other) (not_holder inv at' rfl)
  | find index n curr =>
    have here := inv.here t
    rw [at'] at here
    obtain ⟨_, _, _, inside, rfl⟩ := here
    have entry : nodes[n - 1]? = some nodes[n - 1] := List.getElem?_eq_getElem (by omega)
    simp only [step, at'] at step'
    split at step'
    next =>
      cases step'
      exact agrees.bystander rfl (fun u other => goto_of_ne other) (not_holder inv at' rfl)
    next =>
      cases step'
      rw [entry, follow_eq (inv.live _ (List.mem_of_getElem? entry))]
      exact agrees.bystander rfl (fun u other => goto_of_ne other) (not_holder inv at' rfl)
  | _ => simp [at', Pc.reading] at role

theorem inserter_agrees
    (role : (s.pc t).inserting = true ∨ s.pc t = .malloc ∨ (∃ mine, s.pc t = .clear mine) ∨
      ∃ mine, s.pc t = .lockInsert mine) :
    Agrees (log.record t (s.pc t)) (Pc.effect nodes (s.pc t)) s' := by
  cases at' : s.pc t with
  | malloc =>
    simp only [step, at'] at step'
    split at step'
    next => cases step'
    next =>
      cases step'
      exact agrees.bystander rfl (fun u other => goto_of_ne other) (not_holder inv at' rfl)
  | clear mine =>
    have alive := (inv.owned t mine (by rw [at']; rfl)).1
    simp only [step, at', State.store, if_pos alive] at step'
    cases step'
    exact agrees.bystander rfl (fun u other => goto_of_ne other) (not_holder inv at' rfl)
  | lockInsert mine =>
    simp only [step, at'] at step'
    split at step'
    next free =>
      cases step'
      exact .hold rfl rfl goto_self ⟨rfl, agrees.settled free⟩
    next => cases step'
  | findFirst mine =>
    obtain ⟨holds, call, earlier, history, -, list⟩ := agrees.holder inv at' rfl
    have recorded : called t (.addDinner mine) log.history = ⟨t, some (.addDinner mine)⟩ :: earlier := by
      rw [history, called_self]
    simp only [step, at'] at step'
    split at step'
    all_goals
      cases step'
      exact .hold holds recorded goto_self ⟨rfl, list⟩
  | lastTest mine last =>
    obtain ⟨holds, call, earlier, history, progress⟩ := agrees.holder inv at' rfl
    have member : last ∈ nodes := inv.pointer_mem (by rw [at']; rfl)
    simp only [step, at', follow_eq (inv.live last member)] at step'
    cases step'
    refine .hold holds history goto_self ?_
    split
    all_goals exact progress
  | lastNext mine last =>
    obtain ⟨holds, call, earlier, history, progress⟩ := agrees.holder inv at' rfl
    have here := inv.here t
    rw [at'] at here
    obtain ⟨_, member, link⟩ := here
    obtain ⟨next, link⟩ := Option.ne_none_iff_exists'.mp link
    simp only [step, at', follow_eq (inv.live last member), link] at step'
    cases step'
    exact .hold holds history goto_self progress
  | linkFirst mine =>
    obtain ⟨holds, call, earlier, history, rfl, list⟩ := agrees.holder inv at' rfl
    simp only [step, at'] at step'
    cases step'
    refine .hold holds history goto_self ?_
    change replay log.history = _
    rw [history, replay, list]
    rfl
  | linkLast mine last =>
    obtain ⟨holds, call, earlier, history, rfl, list⟩ := agrees.holder inv at' rfl
    have member : last ∈ nodes := inv.pointer_mem (by rw [at']; rfl)
    simp only [step, at', State.store, if_pos (inv.live last member)] at step'
    cases step'
    refine .hold holds history goto_self ?_
    change replay log.history = _
    rw [history, replay, list]
    rfl
  | addRead | addWrite | insertPrint =>
    obtain ⟨holds, call, earlier, history, progress⟩ := agrees.holder inv at' rfl
    simp only [step, at'] at step'
    cases step'
    exact .hold holds history goto_self progress
  | unlockInsert =>
    obtain ⟨_, _, _, _, progress⟩ := agrees.holder inv at' rfl
    simp only [step, at'] at step'
    cases step'
    exact .release rfl progress
  | _ => simp [at', Pc.inserting] at role

theorem deleter_agrees (role : (s.pc t).writing = true ∨ s.pc t = .wrlock) :
    Agrees (log.record t (s.pc t)) (Pc.effect nodes (s.pc t)) s' := by
  cases at' : s.pc t with
  | wrlock =>
    simp only [step, at'] at step'
    split at step'
    next =>
      cases step'
      exact agrees.bystander rfl (fun u other => goto_of_ne other) (not_holder inv at' rfl)
    next => cases step'
  | wrunlock =>
    simp only [step, at'] at step'
    cases step'
    exact agrees.bystander rfl (fun u other => goto_of_ne other) (not_holder inv at' rfl)
  | lockDelete =>
    simp only [step, at'] at step'
    split at step'
    next free =>
      cases step'
      exact .hold rfl rfl goto_self ⟨rfl, agrees.settled free⟩
    next => cases step'
  | deleteTest =>
    obtain ⟨holds, call, earlier, history, rfl, list⟩ := agrees.holder inv at' rfl
    simp only [step, at'] at step'
    cases step'
    refine .hold holds history goto_self ?_
    split
    · exact ⟨rfl, list⟩
    · change replay log.history = _
      rw [history, replay, list]
      rfl
  | lockDeleters | deletePick =>
    obtain ⟨holds, call, earlier, history, progress⟩ := agrees.holder inv at' rfl
    simp only [step, at'] at step'
    split at step'
    next =>
      cases step'
      exact .hold holds history goto_self progress
    next => cases step'
  | cancelStart index =>
    obtain ⟨holds, call, earlier, history, -, list⟩ := agrees.holder inv at' rfl
    have recorded : called t (.cancelDinner index) log.history = ⟨t, some (.cancelDinner index)⟩ :: earlier := by
      rw [history, called_self]
    simp only [step, at'] at step'
    cases step'
    exact .hold holds recorded goto_self ⟨rfl, list⟩
  | cancel index n prev curr =>
    obtain ⟨holds, call, earlier, history, call', list⟩ := agrees.holder inv at' rfl
    have here := inv.here t
    rw [at'] at here
    obtain ⟨first, _, _, inside, rfl, _⟩ := here
    simp only [step, at'] at step'
    split at step'
    next same =>
      cases step'
      refine .hold holds history goto_self ⟨list, index, call', by omega, ?_⟩
      rw [← same, Int.toNat_natCast]
      rfl
    next =>
      have entry : nodes[n - 1]? = some nodes[n - 1] := List.getElem?_eq_getElem inside
      rw [entry, follow_eq (inv.live _ (List.mem_of_getElem? entry))] at step'
      cases step'
      exact .hold holds history goto_self ⟨call', list⟩
  | snip prev curr =>
    obtain ⟨holds, call, earlier, history, list, index, call', first, here⟩ := agrees.holder inv at' rfl
    have place := inv.here t
    rw [at'] at place
    obtain ⟨i, inside, rfl, _⟩ := place
    have entry : nodes[i]? = some nodes[i] := List.getElem?_eq_getElem inside
    simp only [step, at'] at step'
    rw [entry, follow_eq (inv.live _ (List.mem_of_getElem? entry))] at step'
    cases step'
    exact .hold holds history goto_self ⟨list, index, call', first, here.trans entry⟩
  | unlink prev curr link =>
    obtain ⟨holds, call, earlier, history, list, index, rfl, first, here⟩ := agrees.holder inv at' rfl
    have result : replay log.history = some ⟨nodes.erase curr, log.freed ++ [curr]⟩ := by
      rw [history, replay, list, inv.chain.erase_eq here]
      simp only [Option.bind_some, Sequential.perform, if_pos first, here]
    cases prev with
    | none =>
      simp only [step, at'] at step'
      cases step'
      exact .hold holds history goto_self result
    | some prev =>
      have place := inv.here t
      rw [at'] at place
      obtain ⟨i, ⟨inside, _, front⟩, _⟩ := place
      have member : prev ∈ nodes := by
        split at front
        · cases front
        · exact List.mem_of_getElem? front.symm
      simp only [step, at', State.store, if_pos (inv.live prev member)] at step'
      cases step'
      exact .hold holds history goto_self result
  | subRead | subWrite | deletePrint | unlockDeleters =>
    obtain ⟨holds, call, earlier, history, progress⟩ := agrees.holder inv at' rfl
    simp only [step, at'] at step'
    cases step'
    exact .hold holds history goto_self progress
  | free curr =>
    obtain ⟨holds, call, earlier, history, progress⟩ := agrees.holder inv at' rfl
    have alive := (inv.owned t curr (by rw [at']; rfl)).1
    simp only [step, at', if_pos alive] at step'
    cases step'
    exact .hold holds history goto_self progress
  | unlockDelete =>
    obtain ⟨_, _, _, _, progress⟩ := agrees.holder inv at' rfl
    simp only [step, at'] at step'
    cases step'
    exact .release rfl progress
  | _ => simp [at', Pc.writing] at role

theorem step_agrees : Agrees (log.record t (s.pc t)) (Pc.effect nodes (s.pc t)) s' := by
  have here := inv.here t
  cases at' : s.pc t with
  | rdlock | searchTest | searchPick | findStart | find | found | rdunlock =>
    rw [← at']
    exact searcher_agrees inv agrees step' (by rw [at']; simp [Pc.reading])
  | malloc | clear | lockInsert | findFirst | lastTest | lastNext | linkFirst | linkLast | addRead
  | addWrite | insertPrint | unlockInsert =>
    rw [← at']
    exact inserter_agrees inv agrees step' (by rw [at']; simp [Pc.inserting])
  | crashed =>
    rw [at'] at here
    exact here.elim
  | _ =>
    rw [← at']
    exact deleter_agrees inv agrees step' (by rw [at']; simp [Pc.writing])

end

theorem run_agrees {labels : List (Thread × Oracle)} (run : Run Step s labels s') (inv : InvAt s nodes)
    (agrees : Agrees log nodes s) :
    ∃ nodes', InvAt s' nodes' ∧ Agrees (logOf s labels log) nodes' s' := by
  induction run generalizing log nodes with
  | nil => exact ⟨nodes, inv, agrees⟩
  | cons edge _ ih =>
    rw [Step] at edge
    obtain ⟨nodes', inv', agrees'⟩ := ih (step_inv inv edge) (step_agrees inv agrees edge)
    refine ⟨nodes', inv', ?_⟩
    rw [logOf, edge]
    exact agrees'

/-! ## Refinement -/

/-- Whenever `inserters_lock` is free, the list is what the calls make of the empty list, one
after the other in the order in which the lock was acquired, and exactly the nodes they
remove have been freed. -/
theorem dinner_list_refines {Thread : Type} [DecidableEq Thread] (start s : State Thread)
    (labels : List (Thread × Oracle)) (init : start.Initial) (run : Run Step start labels s)
    (free : s.insertersLock = none) :
    ∃ nodes, nodes.Nodup ∧ Chain s.next s.turkeyDinners nodes ∧
      replay (logOf start labels ⟨[], []⟩).history = some ⟨nodes, (logOf start labels ⟨[], []⟩).freed⟩ := by
  have empty : Agrees ⟨[], []⟩ [] start := .release init.insertersLock rfl
  obtain ⟨nodes, inv, agrees⟩ := run_agrees run init.inv empty
  exact ⟨nodes, inv.chain.nodup, inv.chain, agrees.settled free⟩

/-- Two dinners are added, at 5 and at 6, and the first one is cancelled. -/
theorem dinner_list_refines_add_add_cancel :
    ∃ labels s, Run Step threeThreads labels s ∧ s.insertersLock = none ∧
      (logOf threeThreads labels ⟨[], []⟩).freed = [5] ∧ Chain s.next s.turkeyDinners [6] := by
  obtain ⟨labels, trace, log⟩ : ∃ labels : List (Fin 3 × Oracle),
      (execute (fun s label => step s label.1 label.2) threeThreads labels).map (·.insertersLock) = some none ∧
      logOf threeThreads labels ⟨[], []⟩ =
        ⟨[⟨2, some (.cancelDinner 1)⟩, ⟨1, some (.addDinner 6)⟩, ⟨1, some (.addDinner 5)⟩], [5]⟩ :=
    ⟨List.replicate 9 (1, ⟨5, some 9, 0⟩) ++ List.replicate 10 (1, ⟨6, some 9, 0⟩) ++
      List.replicate 15 (2, ⟨0, none, 1⟩), by decide +kernel, by decide +kernel⟩
  obtain ⟨s, result, free⟩ := Option.map_eq_some_iff.mp trace
  have run : Run Step threeThreads labels s := run_of_execute result
  obtain ⟨nodes, -, chain, replayed⟩ := dinner_list_refines threeThreads s labels threeThreads_initial run free
  rw [log] at replayed
  cases replayed
  exact ⟨labels, s, run, free, by rw [log], chain⟩

end Cs544.Concur.Dinners
