import Mathlib.Data.Finset.Max
import Cs544.Sched.RtQueueRuns

/-! Balancing real-time tasks: `push_rt_tasks` and `pull_rt_task` as a whole.

As long as nobody intervenes the loops end, and each CPU gets only tasks that are more urgent
than all of its own. Of the tasks that a CPU could have pushed none is left that another CPU
should run.
-/

set_option autoImplicit false

namespace Cs544.Sched

open Cs544.Library RunQueue

variable {n : Nat} {τ : Type}

/-- `cpupri_find` finds CPUs of a lower priority than that of a real-time task exactly if there
are some that it may run on. -/
structure Platform.Exact (platform : Platform n) : Prop where
  lower : ∀ {announced : Fin n → Option Nat} {prio : Nat} {allowed mask : Finset (Fin n)},
    platform.cpupriFind announced prio allowed = some mask → prio < maxRtPrio →
    ∀ j ∈ mask, ∃ k, announced j = some k ∧ prio < k
  finds : ∀ {announced : Fin n → Option Nat} {prio : Nat} {allowed : Finset (Fin n)},
    platform.cpupriFind announced prio allowed = none → prio < maxRtPrio →
    ∀ j ∈ allowed, ∀ k, announced j = some k → k ≤ prio

theorem flatPlatform_exact (n : Nat) : (flatPlatform n).Exact where
  lower {announced prio allowed mask} found _ j member := by
    rw [flatPlatform] at found
    dsimp only at found
    split_ifs at found
    cases found
    have fits := (Finset.mem_filter.mp (Finset.mem_filter.mp member).1).2
    cases known : announced j with
    | none =>
      rw [known] at fits
      cases fits
    | some k =>
      rw [known] at fits
      exact ⟨k, rfl, fits⟩
  finds {announced prio allowed} found _ j member k known := by
    rw [flatPlatform] at found
    dsimp only at found
    split_ifs at found with none'
    by_contra higher
    have fits : j ∈ allowed.filter fun j => prio < (announced j).getD 0 := by
      refine Finset.mem_filter.mpr ⟨member, ?_⟩
      rw [known]
      exact Nat.lt_of_not_le higher
    obtain ⟨best, inside, most⟩ := Finset.exists_max_image _ (fun j => (announced j).getD 0) ⟨j, fits⟩
    exact none' ⟨best, Finset.mem_filter.mpr ⟨inside, most⟩⟩

namespace RootDomain

variable {rd m next : RootDomain n τ} {p : τ} {i j dest : Fin n}

/-- Tasks that are added to a CPU can only make it more urgent. -/
theorem Sound.highest_anti (sound : rd.Sound) (sound' : next.Sound)
    (kept : ∀ q ∈ (rd.rq j).ready, q ∈ (next.rq j).ready ∧ (next.task q).prio = (rd.task q).prio) :
    (next.rq j).highestPrioCurr ≤ (rd.rq j).highestPrioCurr := by
  rw [(sound.rq j).highestPrioCurr, (sound.rq j).active.le_firstBit, (sound'.rq j).highestPrioCurr]
  refine ⟨(sound'.rq j).active.firstBit_le, fun q member => ?_⟩
  obtain ⟨member', prio⟩ := kept q member
  rw [← prio]
  exact (sound'.rq j).active.firstBit_le_level member'

/-! ## Pushing -/

/-- There is nothing left to push, or the running task must make way first. -/
def PushSettled (i : Fin n) (rd : RootDomain n τ) : Prop :=
  (rd.rq i).overloaded = false ∨ (rd.rq i).pushableTasks = [] ∨
    ((rd.rq i).needResched = true ∧ ∃ p ∈ (rd.rq i).pushableTasks.head?, (rd.task p).prio < (rd.task (rd.rq i).curr).prio)

/-- What becomes of the tasks when some of those that a CPU offers are pushed. -/
structure Pushed (i : Fin n) (rd next : RootDomain n τ) : Prop where
  sound : next.Sound
  curr : ∀ j, (next.rq j).curr = (rd.rq j).curr
  online : ∀ j, (next.rq j).online = (rd.rq j).online
  needResched : ∀ j, (rd.rq j).needResched = true → (next.rq j).needResched = true
  task : ∀ p, next.task p = rd.task p ∨ p ∈ (rd.rq i).pushableTasks ∧
    ∃ dest ∈ (rd.task p).cpusAllowed, dest ≠ i ∧ next.task p = (rd.task p).setTaskCpu dest
  offered : (next.rq i).pushableTasks.Sublist (rd.rq i).pushableTasks
  lost : (next.rq i).ready.Sublist (rd.rq i).ready
  gained : ∀ j, j ≠ i → (next.rq j).ready = (rd.rq j).ready ∨ (next.rq j).needResched = true ∧
    ∃ p ∈ (rd.rq i).pushableTasks, j ∈ (rd.task p).cpusAllowed ∧ (∀ q ∈ (rd.rq j).ready, (rd.task p).prio < (rd.task q).prio) ∧
      (next.rq j).ready = p :: (rd.rq j).ready

/-- No CPU that a task may run on is less urgent. -/
def Blocked (p : τ) (rd : RootDomain n τ) : Prop :=
  ∀ j ∈ (rd.task p).cpusAllowed, (rd.rq j).online = true → (rd.rq j).highestPrioCurr ≤ (rd.task p).prio

theorem Pushed.refl (sound : rd.Sound) (i : Fin n) : Pushed i rd rd where
  sound := sound
  curr _ := rfl
  online _ := rfl
  needResched _ := id
  task _ := .inl rfl
  offered := List.Sublist.refl _
  lost := List.Sublist.refl _
  gained _ _ := .inl rfl

theorem Pushed.task_eq (pushed : Pushed i rd next) (q : τ) :
    (next.task q).prio = (rd.task q).prio ∧ (next.task q).cpusAllowed = (rd.task q).cpusAllowed := by
  rcases pushed.task q with same | ⟨_, dest, _, _, same⟩
  · rw [same]
    exact ⟨rfl, rfl⟩
  · rw [same]
    exact ⟨rfl, rfl⟩

/-- A task that stays stays blocked. -/
theorem Pushed.blocked (pushed : Pushed i rd next) (sound : rd.Sound) (stays : p ∈ (next.rq i).ready)
    (blocked : Blocked p rd) : Blocked p next := by
  intro j allowed on
  rw [(pushed.task_eq p).2] at allowed
  rw [pushed.online] at on
  have before := blocked j allowed on
  by_cases here : j = i
  · rw [here]
    exact pushed.sound.highest_le stays
  · rw [(pushed.task_eq p).1]
    refine Nat.le_trans (sound.highest_anti pushed.sound fun q member => ⟨?_, (pushed.task_eq q).1⟩) before
    rcases pushed.gained j here with same | ⟨_, _, _, _, _, same⟩
    · rwa [same]
    · rw [same]
      exact List.mem_cons_of_mem _ member

/-- The running task is to be scheduled anew. -/
theorem Pushed.slipped (sound : rd.Sound) (i : Fin n) : Pushed i rd (rd.setRq i (rd.rq i).resched) where
  sound := (sound.resched i).1
  curr := forall_setRq (P := fun j rq => rq.curr = (rd.rq j).curr) rfl fun _ _ => rfl
  online := forall_setRq (P := fun j rq => rq.online = (rd.rq j).online) rfl fun _ _ => rfl
  needResched := forall_setRq (P := fun j rq => (rd.rq j).needResched = true → rq.needResched = true) (fun _ => rfl) fun _ _ => id
  task _ := .inl rfl
  offered := by
    rw [setRq_self]
    exact List.Sublist.refl _
  lost := by
    rw [setRq_self]
    exact List.Sublist.refl _
  gained j other := by
    rw [setRq_of_ne _ other]
    exact .inl rfl

/-! ### Where no CPU is less urgent -/

theorem exists_electCpu (domains : List (SchedDomain n)) (thisCpu cpu : Fin n) {lowestMask : Finset (Fin n)}
    (nonempty : lowestMask.Nonempty) : ∃ best, electCpu domains thisCpu cpu lowestMask = some best := by
  have found : ((List.finRange n).find? fun j => j ∈ lowestMask).isSome := by
    obtain ⟨j, member⟩ := nonempty
    exact List.find?_isSome.mpr ⟨j, List.mem_finRange j, decide_eq_true member⟩
  rw [← Option.isSome_iff_exists, electCpu]
  split_ifs
  · rfl
  · cases domains.findSome? (bestCpu thisCpu lowestMask) with
    | some best => rfl
    | none => rfl
  · cases domains.findSome? (bestCpu thisCpu lowestMask) with
    | some best => rfl
    | none => exact found

/-- `find_lowest_rq` gives up only if no CPU is less urgent. -/
theorem Sound.blocked (sound : rd.Sound) {platform : Platform n} (exact' : platform.Exact) {thisCpu : Fin n}
    (offered : p ∈ (rd.rq i).pushableTasks) (none' : rd.findLockLowestRq platform thisCpu p i = none) : Blocked p rd := by
  obtain ⟨waits, _, migratory⟩ := (sound.rq i).eligible p offered
  have below : (rd.task p).prio < maxRtPrio := sound.prio p (sound.mem_ready.mp waits).2.1
  have announced (j : Fin n) := (sound.rq j).cpupri
  have search : rd.findLowestRq platform thisCpu p = (platform.cpupriFind (fun j => (rd.rq j).cpupri) (rd.task p).prio
      (rd.task p).cpusAllowed).bind (electCpu (platform.domains (rd.task p).cpu) thisCpu (rd.task p).cpu) :=
    if_neg (by omega)
  cases mask : platform.cpupriFind (fun j => (rd.rq j).cpupri) (rd.task p).prio (rd.task p).cpusAllowed with
  | none =>
    intro j allowed on
    exact exact'.finds mask below j allowed _ ((announced j).trans (if_pos on))
  | some lowestMask =>
    obtain ⟨nonempty, _⟩ := platform.cpupriFind_spec _ _ _ _ mask
    obtain ⟨best, elected⟩ := exists_electCpu (platform.domains (rd.task p).cpu) thisCpu (rd.task p).cpu nonempty
    obtain ⟨k, known, lower⟩ := exact'.lower mask below best (electCpu_mem elected)
    -- The CPU that was found is another one and less urgent.
    have highest : k = (rd.rq best).highestPrioCurr := by
      rw [announced] at known
      split_ifs at known
      exact (Option.some.inj known).symm
    have apart : best ≠ i := by
      rintro rfl
      have least := sound.highest_le waits
      omega
    rw [findLockLowestRq, search, mask, Option.bind_some, elected] at none'
    dsimp only at none'
    rw [if_pos ⟨apart, by omega⟩] at none'
    cases none'

/-- The count of overloaded CPUs is that of the bits in their mask. -/
theorem Sound.rtoCount (sound : rd.Sound) : rd.rtoCount = rd.rtoMask.length := by
  rw [RootDomain.rtoCount, RootDomain.rtoMask, ← List.countP_eq_length_filter]
  induction List.finRange n with
  | nil => rfl
  | cons i rest ih =>
    have bit : (rd.rq i).rtoCount = (rd.rq i).rtoMask.toInt := by
      rw [(sound.rq i).rtoCount, (sound.rq i).rtoMask]
    rw [List.map_cons, List.sum_cons, ih, bit, List.countP_cons]
    cases (rd.rq i).rtoMask with
    | false => exact Int.zero_add _
    | true => exact Int.add_comm ..

section
variable [DecidableEq τ]

/-! ### A task that is moved -/

/-- The priority of a task and where it may run are as before. -/
theorem Shifted.task_eq (shifted : Shifted p dest rd next) (q : τ) :
    (next.task q).prio = (rd.task q).prio ∧ (next.task q).cpusAllowed = (rd.task q).cpusAllowed := by
  rw [shifted.task]
  by_cases same : q = p
  · rw [same, Function.update_self]
    exact ⟨rfl, rfl⟩
  · rw [Function.update_of_ne same]
    exact ⟨rfl, rfl⟩

/-! ### Rounds -/

theorem rest_withdraw (j : Fin n) :
    SameRest (rd.rq j) ((rd.setRq i ((rd.rq i).dequeuePushableTask p)).rq j) := by
  refine forall_setRq (P := fun j rq => SameRest (rd.rq j) rq) ?_ (fun _ _ => .refl _) j
  exact ⟨rfl, rfl, rfl, rfl⟩

/-- The first task is not offered any more, and then others are pushed. -/
theorem Pushed.withdrawn (later : Pushed i (rd.setRq i ((rd.rq i).dequeuePushableTask p)) next) : Pushed i rd next where
  sound := later.sound
  curr j := (later.curr j).trans (rest_withdraw j).curr
  online j := (later.online j).trans (rest_withdraw j).online
  needResched j set := later.needResched j ((rest_withdraw j).needResched.trans set)
  task q := by
    rcases later.task q with same | ⟨member, moved⟩
    · exact .inl same
    · rw [setRq_self] at member
      exact .inr ⟨List.mem_of_mem_erase member, moved⟩
  offered := by
    refine later.offered.trans ?_
    rw [setRq_self]
    exact List.erase_sublist
  lost := by
    refine later.lost.trans ?_
    rw [setRq_self]
    exact List.Sublist.refl _
  gained j other := by
    have gained := later.gained j other
    rw [setRq_of_ne _ other, setRq_self] at gained
    refine gained.imp_right fun ⟨resched, q, member, whole⟩ => ⟨resched, q, List.mem_of_mem_erase member, whole⟩

/-- The first task is pushed, and then others are. No CPU gets two tasks. -/
theorem Pushed.shifted {rest : List τ} (sound : rd.Sound) (offered : (rd.rq i).pushableTasks = p :: rest)
    (allowed : dest ∈ (rd.task p).cpusAllowed) (apart : dest ≠ i) (urgent : (rd.task p).prio < (rd.rq dest).highestPrioCurr)
    (shifted : Shifted p dest rd m) (resched : (m.rq dest).needResched = true) (later : Pushed i m next) :
    Pushed i rd next := by
  have nodup := (sound.rq i).nodup
  have sorted := (sound.rq i).sorted
  rw [offered] at nodup sorted
  have rest' : (m.rq i).pushableTasks = rest := by
    rw [shifted.pushableTasks i (Ne.symm apart), offered, List.erase_cons_head]
  have waits : p ∈ (rd.rq i).ready := ((sound.rq i).eligible p (by simp [offered])).1
  have here : (rd.task p).cpu = i := (sound.mem_ready.mp waits).2.2
  refine ⟨later.sound, fun j => (later.curr j).trans (shifted.curr j), fun j => (later.online j).trans (shifted.online j),
    fun j set => later.needResched j (shifted.needResched j set), fun q => ?_, ?_, ?_, fun j other => ?_⟩
  · by_cases same : q = p
    · refine .inr ⟨by simp [same, offered], dest, by rwa [same], apart, ?_⟩
      have kept : next.task q = m.task q := (later.task q).resolve_right fun moved => by
        rw [rest', same] at moved
        exact (List.nodup_cons.mp nodup).1 moved.1
      rw [kept, shifted.task, same, Function.update_self]
    · have kept : m.task q = rd.task q := by rw [shifted.task, Function.update_of_ne same]
      rw [← kept]
      refine (later.task q).imp_right fun ⟨member, moved⟩ => ⟨?_, moved⟩
      rw [offered]
      exact List.mem_cons_of_mem _ (by rwa [← rest'])
  · rw [offered]
    refine List.Sublist.cons _ ?_
    rw [← rest']
    exact later.offered
  · refine later.lost.trans ?_
    rw [shifted.lost i (Ne.symm apart)]
    exact List.erase_sublist
  · by_cases gets : j = dest
    · subst gets
      refine .inr ⟨later.needResched j resched, p, by simp [offered], allowed, fun q member => ?_, ?_⟩
      · exact Nat.lt_of_lt_of_le urgent (sound.highest_le member)
      · rcases later.gained j other with same | ⟨_, q, member, _, least, _⟩
        · rw [same, shifted.gained]
        · -- The next one is not more urgent than the one that came.
          have behind : (rd.task p).prio ≤ (rd.task q).prio :=
            (List.pairwise_cons.mp sorted).1 q (by rwa [← rest'])
          have before := least p (by simp [shifted.gained])
          rw [(shifted.task_eq q).1, (shifted.task_eq p).1] at before
          omega
    · have kept : (m.rq j).ready = (rd.rq j).ready := by
        rw [shifted.lost j gets]
        exact List.erase_of_not_mem fun member => other ((sound.mem_ready.mp member).2.2.symm.trans here)
      have gained := later.gained j other
      rw [kept, rest'] at gained
      refine gained.imp_right fun ⟨set, q, member, allowed', least, whole⟩ => ?_
      simp only [(shifted.task_eq _).1, (shifted.task_eq _).2] at allowed' least
      exact ⟨set, q, by simp [offered, member], allowed', least, whole⟩

/-- Each round that goes on leaves fewer tasks to offer. -/
theorem Sound.pushRounds (sound : rd.Sound) (platform : Platform n) (thisCpu i : Fin n) {rounds : Nat}
    (enough : (rd.rq i).pushableTasks.length < rounds) :
    ∃ next, rd.pushRtTasks platform thisCpu i rounds = some next ∧ PushSettled i next ∧ Pushed i rd next ∧
      (platform.Exact → ∀ p ∈ (rd.rq i).pushableTasks, p ∈ (next.rq i).ready →
        p ∈ (next.rq i).pushableTasks ∨ Blocked p next) := by
  induction rounds generalizing rd with
  | zero => exact absurd enough (Nat.not_lt_zero _)
  | succ rounds ih =>
    obtain ⟨m, again, result, round⟩ := sound.pushRound platform thisCpu i
    rw [pushRtTasks, result]
    cases round with
    | done none' =>
      have settled : PushSettled i rd := none'.imp_right .inl
      exact ⟨rd, rfl, settled, .refl sound i, fun _ p offered _ => .inl offered⟩
    | @slipped q first urgent =>
      refine ⟨_, rfl, .inr (.inr ?_), .slipped sound i, fun _ p offered _ => .inl ?_⟩
      · rw [setRq_self]
        exact ⟨rfl, q, first, urgent⟩
      · rwa [setRq_self]
    | @withdrawn q rest offered found =>
      have left : ((rd.setRq i ((rd.rq i).dequeuePushableTask q)).rq i).pushableTasks = rest := by
        rw [setRq_self]
        exact (congrArg (List.erase · q) offered).trans (List.erase_cons_head ..)
      obtain ⟨next, result', settled, later, blocked⟩ := ih (sound.withdraw i q).1 (by
        rw [left]
        rw [offered, List.length_cons] at enough
        omega)
      refine ⟨next, result', settled, later.withdrawn, fun exact' p member stays => ?_⟩
      rw [offered] at member
      rcases List.mem_cons.mp member with rfl | member
      · exact .inr (later.withdrawn.blocked sound stays (sound.blocked exact' (by simp [offered]) found))
      · exact blocked exact' p (by rwa [left]) stays
    | @pushed q rest dest _ offered allowed apart urgent shifted resched _ =>
      have left : (m.rq i).pushableTasks = rest := by
        rw [shifted.pushableTasks i (Ne.symm apart), offered, List.erase_cons_head]
      obtain ⟨next, result', settled, later, blocked⟩ := ih shifted.sound (by
        rw [left]
        rw [offered, List.length_cons] at enough
        omega)
      refine ⟨next, result', settled, later.shifted sound offered allowed apart urgent shifted resched,
        fun exact' p member stays => ?_⟩
      rw [offered] at member
      rcases List.mem_cons.mp member with rfl | member
      · have gone := later.lost.subset stays
        rw [shifted.lost i (Ne.symm apart)] at gone
        exact absurd gone (sound.rq i).ready_nodup.not_mem_erase
      · exact blocked exact' p (by rwa [left]) stays

/-! ## Pulling -/

/-- What becomes of the tasks when a CPU pulls some from other ones. -/
structure Pulled (thisCpu : Fin n) (cpus : List (Fin n)) (pulled : List τ) (rd next : RootDomain n τ) : Prop where
  sound : next.Sound
  curr : ∀ j, (next.rq j).curr = (rd.rq j).curr
  task : ∀ p, next.task p = if p ∈ pulled then (rd.task p).setTaskCpu thisCpu else rd.task p
  gained : (next.rq thisCpu).ready = pulled ++ (rd.rq thisCpu).ready
  sorted : pulled.Pairwise fun p q => (rd.task p).prio < (rd.task q).prio
  urgent : ∀ p ∈ pulled, (rd.task p).prio < (rd.rq thisCpu).highestPrioCurr ∧ thisCpu ∈ (rd.task p).cpusAllowed
  spared : ∀ j, j ∉ cpus → j ≠ thisCpu → (next.rq j).ready = (rd.rq j).ready
  lost : ∀ j, j ≠ thisCpu → (next.rq j).ready = (rd.rq j).ready ∨ (next.rq j).ready ≠ [] ∧
    ∃ p ∈ pulled, p ∈ (rd.rq j).ready ∧ (rd.rq j).curr ≠ p ∧ (rd.task (rd.rq j).curr).prio ≤ (rd.task p).prio ∧
      (next.rq j).ready = (rd.rq j).ready.erase p

theorem Pulled.nil (sound : rd.Sound) (thisCpu : Fin n) (cpus : List (Fin n)) : Pulled thisCpu cpus [] rd rd where
  sound := sound
  curr _ := rfl
  task _ := rfl
  gained := rfl
  sorted := .nil
  urgent := nofun
  spared _ _ _ := rfl
  lost _ _ := .inl rfl

/-- The next CPUs are left with what they have, or with what the rest of the loop leaves. -/
theorem Pulled.skip {thisCpu cpu : Fin n} {cpus : List (Fin n)} {pulled : List τ} (later : Pulled thisCpu cpus pulled rd next) :
    Pulled thisCpu (cpu :: cpus) pulled rd next :=
  { later with spared := fun j outside => later.spared j fun member => outside (List.mem_cons_of_mem cpu member) }

/-- A task is pulled first, and then others that are still more urgent. -/
theorem Pulled.cons {thisCpu cpu : Fin n} {cpus : List (Fin n)} {pulled : List τ} (sound : rd.Sound)
    (waits : p ∈ (rd.rq cpu).ready) (idle : (rd.rq cpu).curr ≠ p) (allowed : thisCpu ∈ (rd.task p).cpusAllowed)
    (apart : thisCpu ≠ cpu) (urgent : (rd.task p).prio < (rd.rq thisCpu).highestPrioCurr)
    (behind : (rd.task (rd.rq cpu).curr).prio ≤ (rd.task p).prio) (crowded : 1 < (rd.rq cpu).rtNrRunning)
    (shifted : Shifted p thisCpu rd m) (fresh : cpu ∉ cpus) (later : Pulled thisCpu cpus pulled m next) :
    Pulled thisCpu (cpu :: cpus) (pulled ++ [p]) rd next := by
  have here : (rd.task p).cpu = cpu := (sound.mem_ready.mp waits).2.2
  have first : p ∈ (m.rq thisCpu).ready := by simp [shifted.gained]
  have prio (q : τ) := (shifted.task_eq q).1
  have before (q : τ) (member : q ∈ pulled) : (rd.task q).prio < (rd.task p).prio := by
    have least := Nat.lt_of_lt_of_le (later.urgent q member).1 (shifted.sound.highest_le first)
    rwa [prio, prio] at least
  have absent : p ∉ pulled := fun member => Nat.lt_irrefl _ (before p member)
  have kept (j : Fin n) (other : j ≠ cpu) (there : j ≠ thisCpu) : (m.rq j).ready = (rd.rq j).ready := by
    rw [shifted.lost j there]
    exact List.erase_of_not_mem fun member => other ((sound.mem_ready.mp member).2.2.symm.trans here)
  have left : (next.rq cpu).ready = (rd.rq cpu).ready.erase p :=
    (later.spared cpu fresh (Ne.symm apart)).trans (shifted.lost cpu (Ne.symm apart))
  refine ⟨later.sound, fun j => (later.curr j).trans (shifted.curr j), fun q => ?_, ?_, ?_, fun q member => ?_,
    fun j outside there => ?_, fun j there => ?_⟩
  · rw [later.task, shifted.task]
    by_cases same : q = p
    · rw [same, Function.update_self, if_neg absent, if_pos (by simp)]
    · rw [Function.update_of_ne same]
      simp only [List.mem_append, List.mem_singleton, same, or_false]
  · rw [later.gained, shifted.gained, List.append_assoc, List.singleton_append]
  · refine List.pairwise_append.mpr ⟨later.sorted.imp fun less => ?_, List.pairwise_singleton _ p, fun q member r last => ?_⟩
    · rwa [prio, prio] at less
    · rw [List.mem_singleton.mp last]
      exact before q member
  · rcases List.mem_append.mp member with member | member
    · have may := (later.urgent q member).2
      rw [(shifted.task_eq q).2] at may
      exact ⟨Nat.lt_trans (before q member) urgent, may⟩
    · rw [List.mem_singleton.mp member]
      exact ⟨urgent, allowed⟩
  · obtain ⟨other, outside⟩ := not_or.mp (List.mem_cons.not.mp outside)
    exact (later.spared j outside there).trans (kept j other there)
  · by_cases source : j = cpu
    · subst source
      refine .inr ⟨?_, p, by simp, waits, idle, behind, left⟩
      rw [left, ← List.length_pos_iff, List.length_erase_of_mem waits]
      have count := (sound.rq j).rtNrRunning
      omega
    · have lost := later.lost j there
      rw [kept j source there, shifted.curr] at lost
      refine lost.imp_right fun ⟨some', q, member, inside, idle', behind', whole⟩ => ?_
      rw [prio, prio] at behind'
      exact ⟨some', q, by simp [member], inside, idle', behind', whole⟩

theorem Sound.pullLoop (sound : rd.Sound) (thisCpu : Fin n) {cpus : List (Fin n)} (nodup : cpus.Nodup) :
    ∃ next pulled, rd.pullLoop thisCpu cpus = some (next, !pulled.isEmpty) ∧ Pulled thisCpu cpus pulled rd next := by
  induction cpus generalizing rd with
  | nil => exact ⟨rd, [], rfl, .nil sound thisCpu []⟩
  | cons cpu cpus ih =>
    obtain ⟨fresh, nodup⟩ := List.nodup_cons.mp nodup
    obtain ⟨m, here, result, round⟩ := sound.pullRound thisCpu cpu
    rw [RootDomain.pullLoop, result, Option.bind_some]
    cases round with
    | skip =>
      obtain ⟨next, pulled, result', later⟩ := ih sound nodup
      dsimp only
      rw [result']
      exact ⟨next, pulled, rfl, later.skip⟩
    | @pulled p _ waits idle allowed apart urgent behind crowded shifted _ =>
      obtain ⟨next, pulled, result', later⟩ := ih shifted.sound nodup
      dsimp only
      rw [result']
      refine ⟨next, pulled ++ [p], ?_, later.cons sound waits idle allowed apart urgent behind crowded shifted fresh⟩
      simp

end

end RootDomain

/-! ## The whole loops, from any state that is reached -/

section
open RootDomain

variable [DecidableEq τ] {task : τ → TaskStruct n} {idle : Fin n → τ} {platform : Platform n}
  {events : List (RtEvent n τ)} {rd next : RootDomain n τ} {i : Fin n}

/-- `push_rt_tasks` ends after a round for each task that is offered, and one more. Tasks leave
only for other CPUs that they may run on, where they are the most urgent ones and which get no
second one. -/
theorem push_rt_tasks_settles (booting : Booting task idle)
    (run : Run (RtStep platform) (schedInit task idle) events rd) (thisCpu i : Fin n) :
    ∃ next, rd.pushRtTasks platform thisCpu i ((rd.rq i).pushableTasks.length + 1) = some next ∧ PushSettled i next ∧
      Pushed i rd next := by
  obtain ⟨next, result, settled, pushed, _⟩ := (run_queues_sound booting run).1.pushRounds platform thisCpu i
    (Nat.lt_succ_self _)
  exact ⟨next, result, settled, pushed⟩

/-- The more urgent one of them goes to the other CPU. -/
theorem push_rt_tasks_settles_crowded : ((crowded.rq cpu0).pushableTasks = [3, 4] ∧ (crowded.rq cpu1).ready = [5]) ∧
    ∃ next, crowded.pushRtTasks (flatPlatform 2) cpu0 cpu0 3 = some next ∧ PushSettled cpu0 next ∧
      Pushed cpu0 crowded next :=
  ⟨by decide, push_rt_tasks_settles booting_fewTasks run_crowded cpu0 cpu0⟩

/-- When `push_rt_tasks` has ended, no CPU is less urgent than a task that was offered and is
still there, unless that is offered even now. -/
theorem nothing_left_to_push (exact' : platform.Exact) (booting : Booting task idle)
    (run : Run (RtStep platform) (schedInit task idle) events rd) (thisCpu : Fin n)
    (pushed : rd.pushRtTasks platform thisCpu i ((rd.rq i).pushableTasks.length + 1) = some next) {p : τ}
    (offered : p ∈ (rd.rq i).pushableTasks) (stays : p ∈ (next.rq i).ready) :
    Blocked p next ∨ p ∈ (next.rq i).pushableTasks ∧ ((next.rq i).overloaded = false ∨ (next.rq i).needResched = true ∧
      ∃ q ∈ (next.rq i).pushableTasks.head?, (next.task q).prio < (next.task (next.rq i).curr).prio) := by
  obtain ⟨_, result, settled, _, blocked⟩ := (run_queues_sound booting run).1.pushRounds platform thisCpu i
    (Nat.lt_succ_self _)
  cases result.symm.trans pushed
  rcases blocked exact' p offered stays with waiting | blocked
  · refine .inr ⟨waiting, settled.imp_right fun settled => settled.resolve_left fun none' => ?_⟩
    rw [none'] at waiting
    cases waiting
  · exact .inl blocked

def relieved : RootDomain 2 Nat := (crowded.pushRtTasks (flatPlatform 2) cpu0 cpu0 3).getD crowded

/-- The other one stays, as both CPUs are more urgent. -/
theorem nothing_left_to_push_crowded : (relieved.rq cpu0).pushableTasks = [] ∧ (relieved.rq cpu1).ready = [3, 5] ∧
    Blocked 4 relieved := by
  have none' : (relieved.rq cpu0).pushableTasks = [] := by decide
  refine ⟨none', by decide, (nothing_left_to_push (flatPlatform_exact 2) booting_fewTasks run_crowded cpu0
    (show crowded.pushRtTasks (flatPlatform 2) cpu0 cpu0 3 = some relieved from rfl) (by decide)
    (by decide)).resolve_right ?_⟩
  rw [none']
  exact fun offered => List.not_mem_nil offered.1

/-- `pull_rt_task` takes tasks of other CPUs that wait there for no less urgent ones, one of
each at most. Every one is more urgent than those before it, and at the end the CPU is more
urgent exactly if it tells so. -/
theorem pull_rt_task_improves (booting : Booting task idle)
    (run : Run (RtStep platform) (schedInit task idle) events rd) (thisCpu : Fin n) : ∃ next pulled,
      rd.pullRtTask thisCpu = some (next, !pulled.isEmpty) ∧ Pulled thisCpu rd.rtoMask pulled rd next ∧
        (pulled ≠ [] ↔ (next.rq thisCpu).highestPrioCurr < (rd.rq thisCpu).highestPrioCurr) := by
  have sound := (run_queues_sound booting run).1
  have nodup : rd.rtoMask.Nodup := (List.nodup_finRange n).filter _
  obtain ⟨next, pulled, result, spec⟩ := sound.pullLoop thisCpu nodup
  have whole : rd.pullRtTask thisCpu = rd.pullLoop thisCpu rd.rtoMask := by
    rw [RootDomain.pullRtTask]
    split_ifs with none'
    · have empty : rd.rtoMask = [] := by
        rw [sound.rtoCount] at none'
        exact List.eq_nil_of_length_eq_zero (by omega)
      rw [empty]
      rfl
    · rfl
  refine ⟨next, pulled, whole.trans result, spec, ?_⟩
  cases pulled with
  | nil =>
    refine iff_of_false (fun some' => some' rfl) (Nat.not_lt.mpr ?_)
    refine spec.sound.highest_anti sound fun q member => ⟨?_, ?_⟩
    · rwa [spec.gained] at member
    · rw [spec.task, if_neg List.not_mem_nil]
  | cons p rest =>
    refine iff_of_true (List.cons_ne_nil p rest) ?_
    have first : p ∈ (next.rq thisCpu).ready := by simp [spec.gained]
    have least := spec.sound.highest_le first
    have urgent := (spec.urgent p List.mem_cons_self).1
    have prio : (next.task p).prio = (rd.task p).prio := by
      rw [spec.task, if_pos List.mem_cons_self]
      rfl
    omega

/-- The second CPU takes the task that is more urgent than its own. -/
theorem pull_rt_task_improves_crowded : ∃ next pulled, crowded.pullRtTask cpu1 = some (next, true) ∧ pulled ≠ [] ∧
    Pulled cpu1 crowded.rtoMask pulled crowded next ∧
      (next.rq cpu1).highestPrioCurr < (crowded.rq cpu1).highestPrioCurr := by
  obtain ⟨next, pulled, result, spec, higher⟩ := pull_rt_task_improves booting_fewTasks run_crowded cpu1
  have told : (crowded.pullRtTask cpu1).map Prod.snd = some true := by decide
  rw [result, Option.map_some] at told
  have some' : (!pulled.isEmpty) = true := Option.some.inj told
  have taken : pulled ≠ [] := by
    rintro rfl
    cases some'
  exact ⟨next, pulled, by rw [result, some'], taken, spec, higher.mp taken⟩

end

end Cs544.Sched
