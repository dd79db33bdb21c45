import Cs544.Concur.Dinners

/-! The invariant of the dinner list, for every interleaving.

Locks are held exactly by the threads whose program counter says so. The list is a
chain of live nodes; a node that is not linked yet, or no longer, belongs to one
thread. What a thread remembers of the list stays true while others run: a searcher
may see nodes appended, a thread with `inserters_lock` sees nothing change.
-/

set_option autoImplicit false

namespace Cs544.Concur.Dinners

open Cs544.Library

variable {Thread : Type}

/-- Every lock is held by the threads that are where it is held. -/
structure Locks (s : State Thread) : Prop where
  readers : ∀ t, t ∈ s.readers ↔ (s.pc t).reading = true
  writer : ∀ t, s.writer = some t ↔ (s.pc t).writing = true
  inserters : ∀ t, s.insertersLock = some t ↔ (s.pc t).locksInserters = true
  deleters : ∀ t, s.deletersLock = some t ↔ (s.pc t).cancelling = true
  exclusive : ∀ t u, (s.pc t).writing = true → (s.pc u).reading = false

/-- The place `i` of a node in the list, with the node in front of it. -/
def Place (nodes : List Address) (i : Nat) (prev curr : Option Address) : Prop :=
  i < nodes.length ∧ curr = nodes[i]? ∧ prev = if i = 0 then none else nodes[i - 1]?

/-- What the local variables of a thread say of the list. -/
def Local (nodes : List Address) (count : Int) (next : Address → Option Address) : Pc → Prop
  | .searchPick | .lockDeleters | .deletePick => 1 ≤ count
  | .findStart index | .cancelStart index => 1 ≤ index ∧ index ≤ count
  | .find index n curr =>
      1 ≤ n ∧ n ≤ index ∧ index ≤ count ∧ n ≤ nodes.length ∧ curr = nodes[n - 1]?
  | .found curr => ∃ p ∈ nodes, curr = some p
  | .lockInsert mine | .findFirst mine => next mine = none
  | .lastTest mine last => next mine = none ∧ last ∈ nodes
  | .lastNext mine last => next mine = none ∧ last ∈ nodes ∧ next last ≠ none
  | .linkFirst mine => next mine = none ∧ nodes = []
  | .linkLast mine last => next mine = none ∧ nodes.getLast? = some last
  | .addWrite read | .subWrite _ read => read = count
  | .cancel index n prev curr => 1 ≤ n ∧ n ≤ index ∧ index ≤ count ∧ Place nodes (n - 1) prev curr
  | .snip prev curr => ∃ i, Place nodes i prev curr
  | .unlink prev curr link => ∃ i, Place nodes i prev (some curr) ∧ link = nodes[i + 1]?
  | .crashed => False
  | _ => True

/-- The invariant, with the list of nodes that are linked. -/
structure InvAt (s : State Thread) (nodes : List Address) : Prop where
  locks : Locks s
  chain : Chain s.next s.turkeyDinners nodes
  live : ∀ p ∈ nodes, s.live p = true
  owned : ∀ t p, (s.pc t).owned = some p → s.live p = true ∧ p ∉ nodes
  unique : ∀ t u p, (s.pc t).owned = some p → (s.pc u).owned = some p → t = u
  balance : ∀ t, (s.pc t).locksInserters = true → s.dinnerCount + (s.pc t).lag = nodes.length
  settled : s.insertersLock = none → s.dinnerCount = nodes.length
  here : ∀ t, Local nodes s.dinnerCount s.next (s.pc t)

variable {s s' : State Thread} {t u : Thread} {pc : Pc} {nodes nodes' : List Address} {p : Address}
  {count count' : Int} {next next' : Address → Option Address}

/-! ## Locks -/

namespace Locks

theorem inserters_unique (locks : Locks s) (first : (s.pc t).locksInserters = true)
    (second : (s.pc u).locksInserters = true) : t = u := by
  have := (locks.inserters t).mpr first
  rw [(locks.inserters u).mpr second] at this
  exact (Option.some.inj this).symm

theorem no_writer (locks : Locks s) (free : s.writer = none) (u : Thread) : (s.pc u).writing = false := by
  rw [Bool.eq_false_iff]
  intro writes
  rw [← locks.writer u, free] at writes
  cases writes

theorem no_reader (locks : Locks s) (free : s.readers = ∅) (u : Thread) : (s.pc u).reading = false := by
  rw [Bool.eq_false_iff]
  intro reads
  rw [← locks.readers u, free] at reads
  simp at reads

variable [DecidableEq Thread]

/-- A step of `t` that leaves every other thread the locks it has. -/
theorem update (locks : Locks s) (others : ∀ u, u ≠ t → s'.pc u = s.pc u)
    (readers : (∀ u, u ≠ t → (u ∈ s'.readers ↔ u ∈ s.readers)) ∧ (t ∈ s'.readers ↔ (s'.pc t).reading = true))
    (writer : (∀ u, u ≠ t → (s'.writer = some u ↔ s.writer = some u)) ∧
      (s'.writer = some t ↔ (s'.pc t).writing = true))
    (inserters : (∀ u, u ≠ t → (s'.insertersLock = some u ↔ s.insertersLock = some u)) ∧
      (s'.insertersLock = some t ↔ (s'.pc t).locksInserters = true))
    (deleters : (∀ u, u ≠ t → (s'.deletersLock = some u ↔ s.deletersLock = some u)) ∧
      (s'.deletersLock = some t ↔ (s'.pc t).cancelling = true))
    (shut : (s'.pc t).writing = true → ∀ u, (s'.pc u).reading = false)
    (quiet : (s'.pc t).reading = true → ∀ u, (s'.pc u).writing = false) : Locks s' where
  readers u := by
    by_cases same : u = t
    · exact same ▸ readers.2
    · rw [readers.1 u same, others u same, locks.readers u]
  writer u := by
    by_cases same : u = t
    · exact same ▸ writer.2
    · rw [writer.1 u same, others u same, locks.writer u]
  inserters u := by
    by_cases same : u = t
    · exact same ▸ inserters.2
    · rw [inserters.1 u same, others u same, locks.inserters u]
  deleters u := by
    by_cases same : u = t
    · exact same ▸ deleters.2
    · rw [deleters.1 u same, others u same, locks.deleters u]
  exclusive u v writes := by
    by_cases first : u = t
    · exact shut (first ▸ writes) v
    · by_cases second : v = t
      · rw [second, Bool.eq_false_iff]
        intro reads
        rw [quiet reads u] at writes
        cases writes
      · rw [others u first] at writes
        rw [others v second]
        exact locks.exclusive u v writes

end Locks

/-- The locks a thread holds: `searchers_lock` for reading, for writing, and the mutexes. -/
def Pc.held (pc : Pc) : Bool × Bool × Bool × Bool :=
  (pc.reading, pc.writing, pc.locksInserters, pc.cancelling)

variable [DecidableEq Thread]

@[simp] theorem goto_self : (s.goto t pc).pc t = pc := Function.update_self ..

theorem goto_of_ne (other : u ≠ t) : (s.goto t pc).pc u = s.pc u := Function.update_of_ne other ..

theorem Locks.goto (locks : Locks s) (same : pc.held = (s.pc t).held) : Locks (s.goto t pc) := by
  simp only [Pc.held, Prod.mk.injEq] at same
  obtain ⟨reading, writing, inserters, cancelling⟩ := same
  refine locks.update (fun u other => goto_of_ne other) ⟨fun _ _ => .rfl, ?_⟩ ⟨fun _ _ => .rfl, ?_⟩
    ⟨fun _ _ => .rfl, ?_⟩ ⟨fun _ _ => .rfl, ?_⟩ (fun writes u => ?_) (fun reads u => ?_)
  · rw [goto_self, reading]
    exact locks.readers t
  · rw [goto_self, writing]
    exact locks.writer t
  · rw [goto_self, inserters]
    exact locks.inserters t
  · rw [goto_self, cancelling]
    exact locks.deleters t
  · rw [goto_self, writing] at writes
    by_cases self : u = t
    · rw [self, goto_self, reading]
      exact locks.exclusive t t writes
    · rw [goto_of_ne self]
      exact locks.exclusive t u writes
  · rw [goto_self, reading] at reads
    have quiet (v : Thread) : (s.pc v).writing = false := by
      rw [Bool.eq_false_iff]
      intro writes
      rw [locks.exclusive v t writes] at reads
      cases reads
    by_cases self : u = t
    · rw [self, goto_self, writing]
      exact quiet t
    · rw [goto_of_ne self]
      exact quiet u

omit [DecidableEq Thread] in
theorem Locks.heap (locks : Locks s) (turkeyDinners : Option Address) (dinnerCount : Int)
    (next : Address → Option Address) (live : Address → Bool) :
    Locks { s with turkeyDinners, dinnerCount, next, live } :=
  ⟨locks.readers, locks.writer, locks.inserters, locks.deleters, locks.exclusive⟩

section
variable (locks : Locks s)
include locks

theorem Locks.setReaders {old : Pc} {readers : Finset Thread} (at' : s.pc t = old)
    (others : ∀ u, u ≠ t → (u ∈ readers ↔ u ∈ s.readers)) (self : t ∈ readers ↔ pc.reading = true)
    (quiet : pc.reading = true → s.writer = none) (writes : pc.writing = old.writing)
    (inserters : pc.locksInserters = old.locksInserters) (deleters : pc.cancelling = old.cancelling)
    (idle : pc.writing = false) : Locks { s.goto t pc with readers } := by
  subst at'
  refine locks.update (fun u other => goto_of_ne other) ⟨others, ?_⟩ ⟨fun _ _ => .rfl, ?_⟩
    ⟨fun _ _ => .rfl, ?_⟩ ⟨fun _ _ => .rfl, ?_⟩ (fun writes' => ?_) (fun reads u => ?_)
  · rwa [goto_self]
  · rw [goto_self, writes]
    exact locks.writer t
  · rw [goto_self, inserters]
    exact locks.inserters t
  · rw [goto_self, deleters]
    exact locks.deleters t
  · rw [goto_self, idle] at writes'
    cases writes'
  · rw [goto_self] at reads
    by_cases same : u = t
    · rw [same, goto_self, idle]
    · rw [goto_of_ne same]
      exact locks.no_writer (quiet reads) u

theorem Locks.setWriter {old : Pc} {writer : Option Thread} (at' : s.pc t = old)
    (others : ∀ u, u ≠ t → (writer = some u ↔ s.writer = some u)) (self : writer = some t ↔ pc.writing = true)
    (shut : pc.writing = true → s.readers = ∅) (reads : pc.reading = old.reading)
    (inserters : pc.locksInserters = old.locksInserters) (deleters : pc.cancelling = old.cancelling)
    (idle : pc.reading = false) : Locks { s.goto t pc with writer } := by
  subst at'
  refine locks.update (fun u other => goto_of_ne other) ⟨fun _ _ => .rfl, ?_⟩ ⟨others, ?_⟩
    ⟨fun _ _ => .rfl, ?_⟩ ⟨fun _ _ => .rfl, ?_⟩ (fun writes u => ?_) (fun reads' => ?_)
  · rw [goto_self, reads]
    exact locks.readers t
  · rwa [goto_self]
  · rw [goto_self, inserters]
    exact locks.inserters t
  · rw [goto_self, deleters]
    exact locks.deleters t
  · rw [goto_self] at writes
    by_cases same : u = t
    · rw [same, goto_self, idle]
    · rw [goto_of_ne same]
      exact locks.no_reader (shut writes) u
  · rw [goto_self, idle] at reads'
    cases reads'

theorem Locks.setMutexes {old : Pc} {insertersLock deletersLock : Option Thread} (at' : s.pc t = old)
    (inserters : ∀ u, u ≠ t → (insertersLock = some u ↔ s.insertersLock = some u))
    (inserter : insertersLock = some t ↔ pc.locksInserters = true)
    (deleters : ∀ u, u ≠ t → (deletersLock = some u ↔ s.deletersLock = some u))
    (deleter : deletersLock = some t ↔ pc.cancelling = true) (reads : pc.reading = old.reading)
    (writes : pc.writing = old.writing) :
    Locks { s.goto t pc with insertersLock, deletersLock } := by
  subst at'
  have still (u : Thread) : ((s.goto t pc).pc u).reading = (s.pc u).reading ∧
      ((s.goto t pc).pc u).writing = (s.pc u).writing := by
    by_cases same : u = t
    · rw [same, goto_self, reads, writes]
      exact ⟨rfl, rfl⟩
    · rw [goto_of_ne same]
      exact ⟨rfl, rfl⟩
  refine locks.update (fun u other => goto_of_ne other) ⟨fun _ _ => .rfl, ?_⟩ ⟨fun _ _ => .rfl, ?_⟩
    ⟨inserters, ?_⟩ ⟨deleters, ?_⟩ (fun writes' u => ?_) (fun reads' u => ?_)
  · rw [(still t).1]
    exact locks.readers t
  · rw [(still t).2]
    exact locks.writer t
  · rwa [goto_self]
  · rwa [goto_self]
  · rw [(still t).2] at writes'
    rw [(still u).1]
    exact locks.exclusive t u writes'
  · rw [(still t).1] at reads'
    rw [(still u).2, Bool.eq_false_iff]
    intro writes'
    rw [locks.exclusive u t writes'] at reads'
    cases reads'

end

/-! ## Interference -/

/-- What a thread knows stays true while others run. A searcher sees the list and the
count grow, the holder of `inserters_lock` sees the list as it was, and nobody
touches the links of a node that belongs to another thread. -/
theorem Local.stable (here : Local nodes count next pc)
    (grow : pc.reading = true → nodes <+: nodes' ∧ count ≤ count')
    (still : pc.locksInserters = true → nodes' = nodes ∧ count' = count)
    (mine : ∀ p, pc.owned = some p → next' p = next p)
    (links : pc.locksInserters = true → ∀ p ∈ nodes, next' p = next p) : Local nodes' count' next' pc := by
  cases pc with
  | searchPick =>
    obtain ⟨_, up⟩ := grow rfl
    exact le_trans here up
  | findStart index =>
    obtain ⟨_, up⟩ := grow rfl
    exact ⟨here.1, le_trans here.2 up⟩
  | find index n curr =>
    obtain ⟨⟨more, rfl⟩, up⟩ := grow rfl
    obtain ⟨first, low, high, inside, rfl⟩ := here
    refine ⟨first, low, le_trans high up, ?_, ?_⟩
    · rw [List.length_append]
      omega
    · rw [List.getElem?_append_left (by omega)]
  | found curr =>
    obtain ⟨p, member, rfl⟩ := here
    exact ⟨p, (grow rfl).1.subset member, rfl⟩
  | lockInsert q => exact (mine q rfl).trans here
  | findFirst q => exact (mine q rfl).trans here
  | lastTest q last =>
    obtain ⟨rfl, rfl⟩ := still rfl
    exact ⟨(mine q rfl).trans here.1, here.2⟩
  | lastNext q last =>
    obtain ⟨rfl, rfl⟩ := still rfl
    refine ⟨(mine q rfl).trans here.1, here.2.1, ?_⟩
    rw [links rfl last here.2.1]
    exact here.2.2
  | linkFirst q =>
    obtain ⟨rfl, rfl⟩ := still rfl
    exact ⟨(mine q rfl).trans here.1, here.2⟩
  | linkLast q last =>
    obtain ⟨rfl, rfl⟩ := still rfl
    exact ⟨(mine q rfl).trans here.1, here.2⟩
  | addWrite | subWrite | lockDeleters | deletePick | cancelStart | cancel | snip | unlink =>
    obtain ⟨rfl, rfl⟩ := still rfl
    exact here
  | crashed => exact here
  | _ => trivial

/-! ## Steps -/

namespace InvAt

/-- A step of `t` keeps the invariant: what it has to show of itself and what it has
to leave to the others. -/
theorem advance (inv : InvAt s nodes) (others : ∀ u, u ≠ t → s'.pc u = s.pc u) (locks : Locks s')
    (chain : Chain s'.next s'.turkeyDinners nodes') (live : ∀ p ∈ nodes', s'.live p = true)
    (owned : ∀ p, (s'.pc t).owned = some p →
      s'.live p = true ∧ p ∉ nodes' ∧ ∀ u, u ≠ t → (s.pc u).owned ≠ some p)
    (spared : ∀ u, u ≠ t → ∀ p, (s.pc u).owned = some p →
      s'.live p = true ∧ p ∉ nodes' ∧ s'.next p = s.next p)
    (balance : (s'.pc t).locksInserters = true → s'.dinnerCount + (s'.pc t).lag = nodes'.length)
    (settled : s'.insertersLock = none → s'.dinnerCount = nodes'.length)
    (here : Local nodes' s'.dinnerCount s'.next (s'.pc t))
    (still : ∀ u, u ≠ t → (s.pc u).locksInserters = true →
      nodes' = nodes ∧ s'.dinnerCount = s.dinnerCount ∧ ∀ p ∈ nodes, s'.next p = s.next p)
    (grow : ∀ u, u ≠ t → (s.pc u).reading = true → nodes <+: nodes' ∧ s.dinnerCount ≤ s'.dinnerCount) :
    InvAt s' nodes' where
  locks := locks
  chain := chain
  live := live
  owned u p has := by
    by_cases same : u = t
    · subst same
      obtain ⟨alive, apart, _⟩ := owned p has
      exact ⟨alive, apart⟩
    · rw [others u same] at has
      obtain ⟨alive, apart, _⟩ := spared u same p has
      exact ⟨alive, apart⟩
  unique u v p first second := by
    by_cases same : u = t
    · by_cases same' : v = t
      · rw [same, same']
      · rw [others v same'] at second
        exact absurd second ((owned p (same ▸ first)).2.2 v same')
    · rw [others u same] at first
      by_cases same' : v = t
      · exact absurd first ((owned p (same' ▸ second)).2.2 u same)
      · rw [others v same'] at second
        exact inv.unique u v p first second
  balance u holds := by
    by_cases same : u = t
    · exact same ▸ balance (same ▸ holds)
    · rw [others u same] at holds ⊢
      obtain ⟨rfl, count, _⟩ := still u same holds
      rw [count]
      exact inv.balance u holds
  settled := settled
  here u := by
    by_cases same : u = t
    · exact same ▸ here
    · rw [others u same]
      refine (inv.here u).stable (grow u same) (fun holds => ?_) (fun p has => ?_) (fun holds => ?_)
      · exact ⟨(still u same holds).1, (still u same holds).2.1⟩
      · exact (spared u same p has).2.2
      · exact (still u same holds).2.2

/-- A step that only reads, or only takes or gives back a lock. -/
theorem control (inv : InvAt s nodes) (others : ∀ u, u ≠ t → s'.pc u = s.pc u) (locks : Locks s')
    (shared : s'.turkeyDinners = s.turkeyDinners ∧ s'.dinnerCount = s.dinnerCount ∧ s'.next = s.next ∧
      s'.live = s.live)
    (owned : (s'.pc t).owned = (s.pc t).owned)
    (balance : (s'.pc t).locksInserters = true → s.dinnerCount + (s'.pc t).lag = nodes.length)
    (settled : s'.insertersLock = none → s.dinnerCount = nodes.length)
    (here : Local nodes s.dinnerCount s.next (s'.pc t)) : InvAt s' nodes := by
  obtain ⟨head, count, next, live⟩ := shared
  refine inv.advance others locks (by rw [next, head]; exact inv.chain) (by rw [live]; exact inv.live)
    (fun p has => ?_) (fun u _ p has => ?_) (by rw [count]; exact balance) (by rw [count]; exact settled)
    (by rw [count, next]; exact here) (fun u _ _ => ⟨rfl, count, fun _ _ => by rw [next]⟩)
    (fun u _ _ => ⟨List.prefix_rfl, le_of_eq count.symm⟩)
  · rw [owned] at has
    obtain ⟨alive, apart⟩ := inv.owned t p has
    exact ⟨by rw [live, alive], apart, fun u other has' => other (inv.unique u t p has' has)⟩
  · obtain ⟨alive, apart⟩ := inv.owned u p has
    exact ⟨by rw [live, alive], apart, by rw [next]⟩

theorem goto {old : Pc} (inv : InvAt s nodes) (at' : s.pc t = old) (same : pc.held = old.held)
    (owned : pc.owned = old.owned) (lag : pc.lag = old.lag) (here : Local nodes s.dinnerCount s.next pc) :
    InvAt (s.goto t pc) nodes := by
  subst at'
  have locks := inv.locks.goto same
  simp only [Pc.held, Prod.mk.injEq] at same
  obtain ⟨_, _, inserters, _⟩ := same
  refine inv.control (t := t) (fun u other => goto_of_ne other) locks ⟨rfl, rfl, rfl, rfl⟩
    (by rw [goto_self, owned]) (fun holds => ?_) inv.settled (by rwa [goto_self])
  rw [goto_self] at holds ⊢
  rw [inserters] at holds
  rw [lag]
  exact inv.balance t holds

/-- Following a pointer to a node of the list, or to one's own. -/
theorem follow {old : Pc} (inv : InvAt s nodes) {goOn : Address → Option Address → Pc} (at' : s.pc t = old)
    (alive : s.live p = true) (same : (goOn p (s.next p)).held = old.held)
    (owned : (goOn p (s.next p)).owned = old.owned) (lag : (goOn p (s.next p)).lag = old.lag)
    (here : Local nodes s.dinnerCount s.next (goOn p (s.next p))) :
    InvAt (s.follow t (some p) goOn) nodes := by
  simp only [State.follow, alive, if_true]
  exact inv.goto at' same owned lag here

omit [DecidableEq Thread] in
/-- Outside of `cancel_dinner` every counted dinner is in the list. -/
theorem count_le (inv : InvAt s nodes) (none' : ∀ u, (s.pc u).inCancelDinner = false) :
    s.dinnerCount ≤ nodes.length := by
  cases holder : s.insertersLock with
  | none => exact le_of_eq (inv.settled holder)
  | some u =>
    have balance := inv.balance u ((inv.locks.inserters u).mp holder)
    have ahead : 0 ≤ (s.pc u).lag := by
      have outside := none' u
      cases at' : s.pc u <;> simp [at', Pc.lag, Pc.inCancelDinner] at outside ⊢
    omega

end InvAt

end Cs544.Concur.Dinners
