import Cs544.Concur.DinnersInvariant

/-! Safety of the search/insert/delete list.

Every step of every thread keeps the invariant, so it holds in every state of every
run: the exclusion of the critical sections, the count against the list, and that no
thread ever follows NULL or reads a freed node.
-/

set_option autoImplicit false

namespace Cs544.Concur.Dinners

open Cs544.Library

variable {Thread : Type} [DecidableEq Thread] {s s' : State Thread} {t u : Thread} {pc : Pc}
  {nodes : List Address} {p mine last : Address}

namespace InvAt

/-! ## Locking -/

section
variable (inv : InvAt s nodes)
include inv

/-- A step on `searchers_lock`, by a thread that does not hold `inserters_lock`. -/
theorem relock {old : Pc} (at' : s.pc t = old) (others : ∀ u, u ≠ t → s'.pc u = s.pc u) (locks : Locks s')
    (shared : s'.turkeyDinners = s.turkeyDinners ∧ s'.dinnerCount = s.dinnerCount ∧ s'.next = s.next ∧
      s'.live = s.live) (mutex : s'.insertersLock = s.insertersLock) (target : s'.pc t = pc)
    (owned : pc.owned = old.owned) (outside : pc.locksInserters = false)
    (here : Local nodes s.dinnerCount s.next pc) : InvAt s' nodes := by
  subst target at'
  refine inv.control others locks shared owned (fun holds => ?_) (fun free => ?_) here
  · rw [outside] at holds
    cases holds
  · exact inv.settled (mutex ▸ free)

theorem rdlock (at' : s.pc t = .rdlock) (free : s.writer = none) :
    InvAt { s.goto t .searchTest with readers := insert t s.readers } nodes := by
  have locks : Locks { s.goto t .searchTest with readers := insert t s.readers } :=
    inv.locks.setReaders at' (fun u other => by simp [other]) (by simp [Pc.reading]) (fun _ => free)
      rfl rfl rfl rfl
  exact inv.relock at' (fun u other => goto_of_ne other) locks ⟨rfl, rfl, rfl, rfl⟩ rfl goto_self
    rfl rfl trivial

theorem rdunlock (at' : s.pc t = .rdunlock) :
    InvAt { s.goto t .rdlock with readers := s.readers.erase t } nodes := by
  have locks : Locks { s.goto t .rdlock with readers := s.readers.erase t } :=
    inv.locks.setReaders at' (fun u other => by simp [other]) (by simp [Pc.reading])
      (fun reads => by cases reads) rfl rfl rfl rfl
  exact inv.relock at' (fun u other => goto_of_ne other) locks ⟨rfl, rfl, rfl, rfl⟩ rfl goto_self
    rfl rfl trivial

theorem wrlock (at' : s.pc t = .wrlock) (free : s.writer = none ∧ s.readers = ∅) :
    InvAt { s.goto t .lockDelete with writer := some t } nodes := by
  have locks : Locks { s.goto t .lockDelete with writer := some t } :=
    inv.locks.setWriter at' (fun u other => by simp [free.1, other.symm]) (by simp [Pc.writing])
      (fun _ => free.2) rfl rfl rfl rfl
  exact inv.relock at' (fun u other => goto_of_ne other) locks ⟨rfl, rfl, rfl, rfl⟩ rfl goto_self
    rfl rfl trivial

theorem wrunlock (at' : s.pc t = .wrunlock) : InvAt { s.goto t .wrlock with writer := none } nodes := by
  have holder : s.writer = some t := (inv.locks.writer t).mpr (by rw [at']; rfl)
  have locks : Locks { s.goto t .wrlock with writer := none } :=
    inv.locks.setWriter at' (fun u other => by simp [holder, other.symm]) (by simp [Pc.writing])
      (fun writes => by cases writes) rfl rfl rfl rfl
  exact inv.relock at' (fun u other => goto_of_ne other) locks ⟨rfl, rfl, rfl, rfl⟩ rfl goto_self
    rfl rfl trivial

/-- Taking `inserters_lock`: the count is right at this moment. -/
theorem lockInserters {old : Pc} (at' : s.pc t = old) (free : s.insertersLock = none)
    (takes : pc.locksInserters = true) (owned : pc.owned = old.owned) (lag : pc.lag = 0)
    (reads : pc.reading = old.reading) (writes : pc.writing = old.writing)
    (deleters : pc.cancelling = old.cancelling) (here : Local nodes s.dinnerCount s.next pc) :
    InvAt { s.goto t pc with insertersLock := some t } nodes := by
  subst at'
  refine inv.control (t := t) (fun u other => goto_of_ne other) ?_ ⟨rfl, rfl, rfl, rfl⟩ ?_ (fun _ => ?_)
    (fun none' => by cases none') ?_
  · exact inv.locks.setMutexes rfl (fun u other => by simp [free, other.symm]) (by simp [takes]) (fun _ _ => .rfl)
      (by rw [deleters]; exact inv.locks.deleters t) reads writes
  · rw [goto_self, owned]
  · rw [goto_self, lag, Int.add_zero]
    exact inv.settled free
  · rwa [goto_self]

/-- Giving `inserters_lock` back: the count is right again. -/
theorem unlockInserters {old : Pc} (at' : s.pc t = old) (held : old.locksInserters = true)
    (settled : old.lag = 0) (gives : pc.locksInserters = false) (owned : pc.owned = old.owned)
    (reads : pc.reading = old.reading) (writes : pc.writing = old.writing)
    (deleters : pc.cancelling = old.cancelling) (here : Local nodes s.dinnerCount s.next pc) :
    InvAt { s.goto t pc with insertersLock := none } nodes := by
  subst at'
  have holder := (inv.locks.inserters t).mpr held
  have balance := inv.balance t held
  rw [settled, Int.add_zero] at balance
  refine inv.control (t := t) (fun u other => goto_of_ne other) ?_ ⟨rfl, rfl, rfl, rfl⟩ ?_ (fun holds => ?_)
    (fun _ => balance) ?_
  · exact inv.locks.setMutexes rfl (fun u other => by simp [holder, other.symm]) (by simp [gives]) (fun _ _ => .rfl)
      (by rw [deleters]; exact inv.locks.deleters t) reads writes
  · rw [goto_self, owned]
  · rw [goto_self, gives] at holds
    cases holds
  · rwa [goto_self]

theorem lockDeleters (at' : s.pc t = .lockDeleters) (free : s.deletersLock = none) :
    InvAt { s.goto t .deletePick with deletersLock := some t } nodes := by
  have here := inv.here t
  have balance := inv.balance t (by rw [at']; rfl)
  have holder : s.insertersLock = some t := (inv.locks.inserters t).mpr (by rw [at']; rfl)
  rw [at'] at here balance
  refine inv.control (t := t) (fun u other => goto_of_ne other) ?_ ⟨rfl, rfl, rfl, rfl⟩ ?_ (fun _ => ?_)
    inv.settled ?_
  · exact inv.locks.setMutexes at' (fun _ _ => .rfl) (iff_of_true holder rfl)
      (fun u other => by simp [free, other.symm]) (by simp [Pc.cancelling]) rfl rfl
  · rw [goto_self, at']
    rfl
  · rw [goto_self]
    exact balance
  · rw [goto_self]
    exact here

theorem unlockDeleters (at' : s.pc t = .unlockDeleters) :
    InvAt { s.goto t .unlockDelete with deletersLock := none } nodes := by
  have balance := inv.balance t (by rw [at']; rfl)
  have holder : s.insertersLock = some t := (inv.locks.inserters t).mpr (by rw [at']; rfl)
  have held : s.deletersLock = some t := (inv.locks.deleters t).mpr (by rw [at']; rfl)
  rw [at'] at balance
  refine inv.control (t := t) (fun u other => goto_of_ne other) ?_ ⟨rfl, rfl, rfl, rfl⟩ ?_ (fun _ => ?_)
    inv.settled ?_
  · exact inv.locks.setMutexes at' (fun _ _ => .rfl) (iff_of_true holder rfl)
      (fun u other => by simp [held, other.symm]) (by simp [Pc.cancelling]) rfl rfl
  · rw [goto_self, at']
    rfl
  · rw [goto_self]
    exact balance
  · rw [goto_self]
    trivial

/-! ## The heap -/

theorem allocate {address : Address} {junk : Option Address} (at' : s.pc t = .malloc)
    (fresh : s.live address = false) :
    InvAt { s.goto t (.clear address) with
      live := Function.update s.live address true
      next := Function.update s.next address junk } nodes := by
  have other {q : Address} (alive : s.live q = true) : q ≠ address := by
    rintro rfl
    rw [fresh] at alive
    cases alive
  have keeps {q : Address} (alive : s.live q = true) : Function.update s.live address true q = true ∧
      Function.update s.next address junk q = s.next q := by
    rw [Function.update_of_ne (other alive), Function.update_of_ne (other alive)]
    exact ⟨alive, rfl⟩
  refine inv.advance (t := t) (fun u other => goto_of_ne other) ((inv.locks.goto (by rw [at']; rfl)).heap _ _ _ _)
    (inv.chain.frame fun q member => (keeps (inv.live q member)).2)
    (fun q member => (keeps (inv.live q member)).1) (fun q has => ?_) (fun u _ q has => ?_) (fun holds => ?_)
    inv.settled ?_ (fun u _ _ => ⟨rfl, rfl, fun q member => (keeps (inv.live q member)).2⟩)
    (fun u _ _ => ⟨List.prefix_rfl, le_rfl⟩)
  · rw [goto_self] at has
    cases has
    refine ⟨Function.update_self .., fun member => other (inv.live _ member) rfl, fun u _ has => ?_⟩
    exact other (inv.owned u _ has).1 rfl
  · obtain ⟨alive, apart⟩ := inv.owned u q has
    exact ⟨(keeps alive).1, apart, (keeps alive).2⟩
  · rw [goto_self] at holds
    cases holds
  · rw [goto_self]
    trivial

theorem clear (at' : s.pc t = .clear mine) : InvAt (s.store t mine none (.lockInsert mine)) nodes := by
  have has : (s.pc t).owned = some mine := by rw [at']; rfl
  obtain ⟨alive, apart⟩ := inv.owned t mine has
  have keeps {q : Address} (other : q ≠ mine) : Function.update s.next mine none q = s.next q :=
    Function.update_of_ne other ..
  have listed {q : Address} (member : q ∈ nodes) : q ≠ mine := fun same => apart (same ▸ member)
  rw [State.store, if_pos alive]
  refine inv.advance (t := t) (fun u other => goto_of_ne other) ((inv.locks.goto (by rw [at']; rfl)).heap _ _ _ _)
    (inv.chain.frame fun q member => keeps (listed member)) inv.live (fun q has' => ?_) (fun u other q has' => ?_)
    (fun holds => ?_) inv.settled ?_ (fun u _ _ => ⟨rfl, rfl, fun q member => keeps (listed member)⟩)
    (fun u _ _ => ⟨List.prefix_rfl, le_rfl⟩)
  · rw [goto_self] at has'
    cases has'
    exact ⟨alive, apart, fun u other has' => other (inv.unique u t mine has' has)⟩
  · obtain ⟨alive', apart'⟩ := inv.owned u q has'
    refine ⟨alive', apart', keeps fun same => ?_⟩
    exact other (inv.unique u t mine (same ▸ has') has)
  · rw [goto_self] at holds
    cases holds
  · rw [goto_self]
    exact Function.update_self ..

theorem append {old : Pc} {head : Option Address} {next : Address → Option Address} (at' : s.pc t = old)
    (held : old.held = Pc.addRead.held) (has : old.owned = some mine) (lag : old.lag = 0)
    (chain : Chain next head (nodes ++ [mine])) (outside : ∀ q, q ∉ nodes → next q = s.next q) :
    InvAt { s.goto t .addRead with turkeyDinners := head, next } (nodes ++ [mine]) := by
  subst at'
  obtain ⟨alive, _⟩ := inv.owned t mine has
  have holds : (s.pc t).locksInserters = true := congrArg (fun held => held.2.2.1) held
  have holder := (inv.locks.inserters t).mpr holds
  have balance := inv.balance t holds
  rw [lag, Int.add_zero] at balance
  refine inv.advance (t := t) (fun u other => goto_of_ne other) ((inv.locks.goto held.symm).heap _ _ _ _) chain
    (fun q member => ?_) (fun q has' => ?_) (fun u other q has' => ?_) (fun _ => ?_) (fun free => ?_) ?_
    (fun u other holds' => ?_) (fun u _ _ => ⟨List.prefix_append .., le_rfl⟩)
  · rcases List.mem_append.mp member with old | new
    · exact inv.live q old
    · rw [List.mem_singleton.mp new]
      exact alive
  · rw [goto_self] at has'
    cases has'
  · obtain ⟨alive', apart'⟩ := inv.owned u q has'
    refine ⟨alive', fun member => ?_, outside q apart'⟩
    rcases List.mem_append.mp member with old | new
    · exact apart' old
    · rw [List.mem_singleton.mp new] at has'
      exact other (inv.unique u t mine has' has)
  · rw [goto_self, List.length_append]
    simp only [Pc.lag, List.length_singleton]
    exact congrArg (· + 1) balance
  · rw [show s.insertersLock = none from free] at holder
    cases holder
  · rw [goto_self]
    trivial
  · exact absurd (inv.locks.inserters_unique holds' holds) other

theorem recount {old : Pc} {count : Int} (at' : s.pc t = old) (held : pc.held = old.held)
    (owned : pc.owned = old.owned) (holds : old.locksInserters = true) (balance : count + pc.lag = nodes.length)
    (grow : ∀ u, (s.pc u).reading = true → s.dinnerCount ≤ count)
    (here : Local nodes count s.next pc) : InvAt { s.goto t pc with dinnerCount := count } nodes := by
  subst at'
  have holder := (inv.locks.inserters t).mpr holds
  refine inv.advance (t := t) (fun u other => goto_of_ne other) ((inv.locks.goto held).heap _ _ _ _) inv.chain
    inv.live (fun q has => ?_) (fun u _ q has => ?_) (fun _ => ?_) (fun free => ?_) ?_
    (fun u other holds' => ?_) (fun u _ reads => ⟨List.prefix_rfl, grow u reads⟩)
  · rw [goto_self, owned] at has
    obtain ⟨alive, apart⟩ := inv.owned t q has
    exact ⟨alive, apart, fun u other has' => other (inv.unique u t q has' has)⟩
  · obtain ⟨alive, apart⟩ := inv.owned u q has
    exact ⟨alive, apart, rfl⟩
  · rwa [goto_self]
  · rw [show s.insertersLock = none from free] at holder
    cases holder
  · rwa [goto_self]
  · exact absurd (inv.locks.inserters_unique holds' holds) other

theorem unlink {old : Pc} {i : Nat} {curr : Address} {head : Option Address}
    {next : Address → Option Address} (at' : s.pc t = old) (held : old.held = (Pc.subRead curr).held)
    (lag : old.lag = 0) (place : nodes[i]? = some curr)
    (chain : Chain next head (nodes.eraseIdx i)) (outside : ∀ q, q ∉ nodes → next q = s.next q) :
    InvAt { s.goto t (.subRead curr) with turkeyDinners := head, next } (nodes.eraseIdx i) := by
  subst at'
  have member : curr ∈ nodes := List.mem_of_getElem? place
  have inside := (List.getElem?_eq_some_iff.mp place).1
  have holds : (s.pc t).locksInserters = true := congrArg (fun held => held.2.2.1) held
  have writes : (s.pc t).writing = true := congrArg (fun held => held.2.1) held
  have holder := (inv.locks.inserters t).mpr holds
  have balance := inv.balance t holds
  rw [lag, Int.add_zero] at balance
  have subset {q : Address} (left : q ∈ nodes.eraseIdx i) : q ∈ nodes := List.mem_of_mem_eraseIdx left
  refine inv.advance (t := t) (fun u other => goto_of_ne other) ((inv.locks.goto held.symm).heap _ _ _ _) chain
    (fun q left => inv.live q (subset left)) (fun q has => ?_) (fun u _ q has => ?_) (fun _ => ?_)
    (fun free => ?_) ?_ (fun u other holds' => ?_) (fun u _ reads => ?_)
  · rw [goto_self] at has
    cases has
    refine ⟨inv.live curr member, fun left => ?_, fun u _ has => (inv.owned u curr has).2 member⟩
    obtain ⟨j, other, there⟩ := List.mem_eraseIdx_iff_getElem?.mp left
    exact other (inv.chain.index_unique there place)
  · obtain ⟨alive, apart⟩ := inv.owned u q has
    exact ⟨alive, fun left => apart (subset left), outside q apart⟩
  · rw [goto_self, List.length_eraseIdx, if_pos inside]
    change s.dinnerCount + -1 = ((nodes.length - 1 : Nat) : Int)
    omega
  · rw [show s.insertersLock = none from free] at holder
    cases holder
  · rw [goto_self]
    trivial
  · exact absurd (inv.locks.inserters_unique holds' holds) other
  · rw [inv.locks.exclusive t u writes] at reads
    cases reads

theorem free {curr : Address} (at' : s.pc t = .free curr) :
    InvAt { s.goto t .deletePrint with live := Function.update s.live curr false } nodes := by
  have has : (s.pc t).owned = some curr := by rw [at']; rfl
  have holds : (s.pc t).locksInserters = true := by rw [at']; rfl
  have holder := (inv.locks.inserters t).mpr holds
  have balance := inv.balance t holds
  rw [at'] at balance
  obtain ⟨_, apart⟩ := inv.owned t curr has
  have keeps {q : Address} (other : q ≠ curr) : Function.update s.live curr false q = s.live q :=
    Function.update_of_ne other ..
  refine inv.advance (t := t) (fun u other => goto_of_ne other) ((inv.locks.goto (by rw [at']; rfl)).heap _ _ _ _)
    inv.chain (fun q member => ?_) (fun q has' => ?_) (fun u other q has' => ?_) (fun _ => ?_) (fun free => ?_) ?_
    (fun u _ _ => ⟨rfl, rfl, fun _ _ => rfl⟩) (fun u _ _ => ⟨List.prefix_rfl, le_rfl⟩)
  · exact (keeps fun same => apart (same ▸ member)).trans (inv.live q member)
  · rw [goto_self] at has'
    cases has'
  · obtain ⟨alive, apart'⟩ := inv.owned u q has'
    refine ⟨(keeps fun same => ?_).trans alive, apart', rfl⟩
    exact other (inv.unique u t curr (same ▸ has') has)
  · rw [goto_self]
    exact balance
  · rw [show s.insertersLock = none from free] at holder
    cases holder
  · rw [goto_self]
    trivial

end

end InvAt

/-! ## Every step -/

omit [DecidableEq Thread] in
/-- While a searcher is inside, no deleter is. -/
theorem InvAt.reader_count {old : Pc} (inv : InvAt s nodes) (at' : s.pc t = old)
    (reads : old.reading = true) : s.dinnerCount ≤ nodes.length := by
  subst at'
  refine inv.count_le fun u => ?_
  rw [Bool.eq_false_iff]
  intro inside
  have writes : (s.pc u).writing = true := by
    cases at' : s.pc u <;> simp [at', Pc.inCancelDinner, Pc.writing] at inside ⊢
  rw [inv.locks.exclusive u t writes] at reads
  cases reads

theorem searcher_step {oracle : Oracle} (inv : InvAt s nodes) (step' : step s t oracle = some s')
    (here : Local nodes s.dinnerCount s.next (s.pc t)) (role : (s.pc t).reading = true ∨ s.pc t = .rdlock) :
    InvAt s' ((s.pc t).effect nodes) := by
  cases at' : s.pc t with
  | rdlock =>
    simp only [step, at'] at step'
    split at step'
    next free =>
      cases step'
      exact inv.rdlock at' free
    next => cases step'
  | searchTest =>
    simp only [step, at'] at step'
    cases step'
    split
    next some' => exact inv.goto at' rfl rfl rfl some'
    next => exact inv.goto at' rfl rfl rfl trivial
  | searchPick =>
    rw [at'] at here
    simp only [step, at'] at step'
    split at step'
    next range =>
      cases step'
      exact inv.goto at' rfl rfl rfl (range here)
    next => cases step'
  | findStart index =>
    have counted := inv.reader_count at' rfl
    rw [at'] at here
    simp only [step, at'] at step'
    cases step'
    refine inv.goto at' rfl rfl rfl ?_
    obtain ⟨low, high⟩ := here
    exact ⟨le_rfl, low, high, by omega, inv.chain.first⟩
  | find index n curr =>
    have counted := inv.reader_count at' rfl
    rw [at'] at here
    obtain ⟨first, low, high, inside, rfl⟩ := here
    have entry : nodes[n - 1]? = some nodes[n - 1] := List.getElem?_eq_getElem (by omega)
    have member := List.mem_of_getElem? entry
    simp only [step, at'] at step'
    split at step'
    next =>
      cases step'
      exact inv.goto at' rfl rfl rfl ⟨_, member, entry⟩
    next more =>
      cases step'
      rw [entry]
      refine inv.follow at' (inv.live _ member) rfl rfl rfl ?_
      refine ⟨by omega, by omega, high, by omega, ?_⟩
      rw [inv.chain.link _ _ entry]
      congr 1
      omega
  | found curr =>
    simp only [step, at'] at step'
    cases step'
    exact inv.goto at' rfl rfl rfl trivial
  | rdunlock =>
    simp only [step, at'] at step'
    cases step'
    exact inv.rdunlock at'
  | _ => simp [at', Pc.reading] at role

theorem inserter_step {oracle : Oracle} (inv : InvAt s nodes) (step' : step s t oracle = some s')
    (here : Local nodes s.dinnerCount s.next (s.pc t))
    (role : (s.pc t).inserting = true ∨ s.pc t = .malloc ∨ (∃ mine, s.pc t = .clear mine) ∨
      ∃ mine, s.pc t = .lockInsert mine) : InvAt s' ((s.pc t).effect nodes) := by
  cases at' : s.pc t with
  | malloc =>
    simp only [step, at'] at step'
    split at step'
    next => cases step'
    next fresh =>
      cases step'
      exact inv.allocate at' (by simpa using fresh)
  | clear mine =>
    simp only [step, at'] at step'
    cases step'
    exact inv.clear at'
  | lockInsert mine =>
    rw [at'] at here
    simp only [step, at'] at step'
    split at step'
    next free =>
      cases step'
      exact inv.lockInserters at' free rfl rfl rfl rfl rfl rfl here
    next => cases step'
  | findFirst mine =>
    rw [at'] at here
    simp only [step, at'] at step'
    split at step'
    next none' =>
      cases step'
      exact inv.goto at' rfl rfl rfl ⟨here, (none' ▸ inv.chain).nodes_eq_nil⟩
    next first head =>
      cases step'
      exact inv.goto at' rfl rfl rfl ⟨here, List.mem_of_getElem? (inv.chain.first.symm.trans head)⟩
  | lastTest mine last =>
    rw [at'] at here
    obtain ⟨clear, member⟩ := here
    simp only [step, at'] at step'
    cases step'
    by_cases link : s.next last = none
    · exact inv.follow at' (inv.live last member) (by simp only [link, if_true]; rfl)
        (by simp only [link, if_true]; rfl) (by simp only [link, if_true]; rfl)
        (by simp only [link, if_true]; exact ⟨clear, inv.chain.getLast_of_next member link⟩)
    · exact inv.follow at' (inv.live last member) (by simp only [link, if_false]; rfl)
        (by simp only [link, if_false]; rfl) (by simp only [link, if_false]; rfl)
        (by simp only [link, if_false]; exact ⟨clear, member, link⟩)
  | lastNext mine last =>
    rw [at'] at here
    obtain ⟨clear, member, link⟩ := here
    obtain ⟨next, link⟩ := Option.ne_none_iff_exists'.mp link
    simp only [step, at'] at step'
    cases step'
    exact inv.follow at' (inv.live last member) (by simp only [link]; rfl) (by simp only [link]; rfl)
      (by simp only [link]; rfl) (by simp only [link]; exact ⟨clear, inv.chain.next_mem member link⟩)
  | linkFirst mine =>
    rw [at'] at here
    obtain ⟨clear, rfl⟩ := here
    simp only [step, at'] at step'
    cases step'
    exact inv.append at' rfl rfl rfl (Chain.single clear) fun _ _ => rfl
  | linkLast mine last =>
    rw [at'] at here
    obtain ⟨clear, final⟩ := here
    have has : (s.pc t).owned = some mine := by rw [at']; rfl
    have member : last ∈ nodes := List.mem_of_getLast? final
    simp only [step, at'] at step'
    cases step'
    rw [State.store, if_pos (inv.live last member)]
    refine inv.append at' rfl rfl rfl (inv.chain.push final (inv.owned t mine has).2 clear) fun q apart => ?_
    exact Function.update_of_ne (fun same : q = last => apart (same ▸ member)) ..
  | addRead =>
    simp only [step, at'] at step'
    cases step'
    exact inv.goto at' rfl rfl rfl rfl
  | addWrite read =>
    have balance := inv.balance t (by rw [at']; rfl)
    rw [at'] at here balance
    have same : read = s.dinnerCount := here
    subst same
    simp only [step, at'] at step'
    cases step'
    refine inv.recount at' rfl rfl rfl ?_ (fun _ _ => by omega) trivial
    simpa [Pc.lag] using balance
  | insertPrint =>
    simp only [step, at'] at step'
    cases step'
    exact inv.goto at' rfl rfl rfl trivial
  | unlockInsert =>
    simp only [step, at'] at step'
    cases step'
    exact inv.unlockInserters at' rfl rfl rfl rfl rfl rfl rfl trivial
  | _ => simp [at', Pc.inserting] at role

omit [DecidableEq Thread] in
/-- The holder of `inserters_lock` sees the right count outside of its own update. -/
theorem InvAt.count_eq {old : Pc} (inv : InvAt s nodes) (at' : s.pc t = old) (holds : old.locksInserters = true)
    (lag : old.lag = 0) : s.dinnerCount = nodes.length := by
  subst at'
  have balance := inv.balance t holds
  rwa [lag, Int.add_zero] at balance

/-- The node that is unlinked is the first, or the one before it is redirected. -/
theorem deleter_unlink {oracle : Oracle} {prev link : Option Address} {curr : Address} (inv : InvAt s nodes)
    (step' : step s t oracle = some s') (at' : s.pc t = .unlink prev curr link)
    (here : Local nodes s.dinnerCount s.next (.unlink prev curr link)) : InvAt s' (nodes.erase curr) := by
  obtain ⟨i, ⟨inside, entry, front⟩, behind⟩ := here
  subst behind
  have erased : nodes.erase curr = nodes.eraseIdx i := inv.chain.erase_eq entry.symm
  rw [erased]
  by_cases first : i = 0
  · -- The first node: the head pointer changes.
    subst first
    rw [if_pos rfl] at front
    subst front
    simp only [step, at'] at step'
    cases step'
    cases nodes with
    | nil => cases entry
    | cons q rest =>
      cases entry
      refine inv.unlink at' rfl rfl rfl ?_ fun _ _ => rfl
      have removed := inv.chain.removeFirst
      rwa [inv.chain.link 0 curr rfl] at removed
  · obtain ⟨j, rfl⟩ := Nat.exists_eq_succ_of_ne_zero first
    rw [if_neg first] at front
    have before : nodes[j]? = some nodes[j] := List.getElem?_eq_getElem (by omega)
    have member := List.mem_of_getElem? before
    rw [Nat.succ_sub_one, before] at front
    subst front
    simp only [step, at'] at step'
    cases step'
    rw [State.store, if_pos (inv.live _ member)]
    refine inv.unlink at' rfl rfl entry.symm (inv.chain.remove before inside) fun q apart => ?_
    exact Function.update_of_ne (fun same : q = nodes[j] => apart (same ▸ member)) ..

theorem deleter_step {oracle : Oracle} (inv : InvAt s nodes) (step' : step s t oracle = some s')
    (here : Local nodes s.dinnerCount s.next (s.pc t)) (role : (s.pc t).writing = true ∨ s.pc t = .wrlock) :
    InvAt s' ((s.pc t).effect nodes) := by
  cases at' : s.pc t with
  | wrlock =>
    simp only [step, at'] at step'
    split at step'
    next free =>
      cases step'
      exact inv.wrlock at' free
    next => cases step'
  | lockDelete =>
    simp only [step, at'] at step'
    split at step'
    next free =>
      cases step'
      exact inv.lockInserters at' free rfl rfl rfl rfl rfl rfl trivial
    next => cases step'
  | deleteTest =>
    simp only [step, at'] at step'
    cases step'
    split
    next some' => exact inv.goto at' rfl rfl rfl some'
    next => exact inv.goto at' rfl rfl rfl trivial
  | lockDeleters =>
    simp only [step, at'] at step'
    split at step'
    next free =>
      cases step'
      exact inv.lockDeleters at' free
    next => cases step'
  | deletePick =>
    rw [at'] at here
    simp only [step, at'] at step'
    split at step'
    next range =>
      cases step'
      exact inv.goto at' rfl rfl rfl (range here)
    next => cases step'
  | cancelStart index =>
    have counted := inv.count_eq at' rfl rfl
    rw [at'] at here
    obtain ⟨low, high⟩ := here
    simp only [step, at'] at step'
    cases step'
    exact inv.goto at' rfl rfl rfl ⟨le_rfl, low, high, by omega, inv.chain.first, rfl⟩
  | cancel index n prev curr =>
    have counted := inv.count_eq at' rfl rfl
    rw [at'] at here
    obtain ⟨first, low, high, place⟩ := here
    simp only [step, at'] at step'
    split at step'
    next =>
      cases step'
      exact inv.goto at' rfl rfl rfl ⟨_, place⟩
    next more =>
      cases step'
      obtain ⟨inside, rfl, rfl⟩ := place
      have entry : nodes[n - 1]? = some nodes[n - 1] := List.getElem?_eq_getElem inside
      have member := List.mem_of_getElem? entry
      have behind : n - 1 + 1 = n := by omega
      rw [entry]
      refine inv.follow at' (inv.live _ member) rfl rfl rfl ⟨by omega, by omega, high, by omega, ?_, ?_⟩
      · rw [inv.chain.link _ _ entry, behind, Nat.add_sub_cancel]
      · rw [Nat.add_sub_cancel, if_neg (by omega), entry]
  | snip prev curr =>
    rw [at'] at here
    obtain ⟨i, inside, rfl, rfl⟩ := here
    have entry : nodes[i]? = some nodes[i] := List.getElem?_eq_getElem inside
    have member := List.mem_of_getElem? entry
    simp only [step, at'] at step'
    cases step'
    rw [entry]
    exact inv.follow at' (inv.live _ member) rfl rfl rfl
      ⟨i, ⟨inside, entry.symm, rfl⟩, inv.chain.link _ _ entry⟩
  | unlink prev curr link =>
    rw [at'] at here
    exact deleter_unlink inv step' at' here
  | subRead curr =>
    simp only [step, at'] at step'
    cases step'
    exact inv.goto at' rfl rfl rfl rfl
  | subWrite curr read =>
    have balance := inv.balance t (by rw [at']; rfl)
    have writes : (s.pc t).writing = true := by rw [at']; rfl
    rw [at'] at here balance
    have same : read = s.dinnerCount := here
    subst same
    simp only [step, at'] at step'
    cases step'
    refine inv.recount at' rfl rfl rfl ?_ (fun u reads => ?_) trivial
    · simpa [Pc.lag, Int.sub_eq_add_neg] using balance
    · rw [inv.locks.exclusive t u writes] at reads
      cases reads
  | free curr =>
    have has : (s.pc t).owned = some curr := by rw [at']; rfl
    simp only [step, at', if_pos (inv.owned t curr has).1] at step'
    cases step'
    exact inv.free at'
  | deletePrint =>
    simp only [step, at'] at step'
    cases step'
    exact inv.goto at' rfl rfl rfl trivial
  | unlockDeleters =>
    simp only [step, at'] at step'
    cases step'
    exact inv.unlockDeleters at'
  | unlockDelete =>
    simp only [step, at'] at step'
    cases step'
    exact inv.unlockInserters at' rfl rfl rfl rfl rfl rfl rfl trivial
  | wrunlock =>
    simp only [step, at'] at step'
    cases step'
    exact inv.wrunlock at'
  | _ => simp [at', Pc.writing] at role

theorem step_inv {oracle : Oracle} (inv : InvAt s nodes) (step' : step s t oracle = some s') :
    InvAt s' ((s.pc t).effect nodes) := by
  have here := inv.here t
  cases at' : s.pc t with
  | rdlock | searchTest | searchPick | findStart | find | found | rdunlock =>
    rw [← at']
    exact searcher_step inv step' here (by rw [at']; simp [Pc.reading])
  | malloc | clear | lockInsert | findFirst | lastTest | lastNext | linkFirst | linkLast | addRead
  | addWrite | insertPrint | unlockInsert =>
    rw [← at']
    exact inserter_step inv step' here (by rw [at']; simp [Pc.inserting])
  | crashed =>
    rw [at'] at here
    exact here.elim
  | _ =>
    rw [← at']
    exact deleter_step inv step' here (by rw [at']; simp [Pc.writing])

/-! ## Safety -/

omit [DecidableEq Thread] in
theorem State.Initial.inv (init : s.Initial) : InvAt s [] := by
  have idle (t : Thread) : (s.pc t).held = (false, false, false, false) ∧ (s.pc t).owned = none ∧
      Local [] s.dinnerCount s.next (s.pc t) := by
    rcases init.pc t with at' | at' | at' <;> rw [at'] <;> exact ⟨rfl, rfl, trivial⟩
  have reading (t : Thread) : (s.pc t).reading = false := congrArg (·.1) (idle t).1
  have writing (t : Thread) : (s.pc t).writing = false := congrArg (·.2.1) (idle t).1
  have inserters (t : Thread) : (s.pc t).locksInserters = false := congrArg (·.2.2.1) (idle t).1
  have deleters (t : Thread) : (s.pc t).cancelling = false := congrArg (·.2.2.2) (idle t).1
  constructor
  · constructor <;> intro t <;> simp [init.readers, init.writer, init.insertersLock, init.deletersLock,
      reading, writing, inserters, deleters]
  · rw [init.turkeyDinners]
    exact .empty _
  · simp
  · intro t p has
    rw [(idle t).2.1] at has
    cases has
  · intro t u p has
    rw [(idle t).2.1] at has
    cases has
  · intro t holds
    rw [inserters t] at holds
    cases holds
  · simp [init.dinnerCount]
  · exact fun t => (idle t).2.2

theorem run_inv {labels : List (Thread × Oracle)} (run : Run Step s labels s')
    (start : ∃ nodes, InvAt s nodes) : ∃ nodes, InvAt s' nodes :=
  run.invariant (fun s => ∃ nodes, InvAt s nodes) (fun ⟨_, inv⟩ edge => ⟨_, step_inv inv edge⟩) start

omit [DecidableEq Thread] in
/-- While a deleter is inside, nobody else is. -/
theorem InvAt.exclusion (inv : InvAt s nodes) (other : u ≠ t) (inside : (s.pc t).deleting = true) :
    (s.pc u).reading = false ∧ (s.pc u).inserting = false ∧ (s.pc u).deleting = false := by
  have holds : (s.pc t).locksInserters = true := by simp [Pc.locksInserters, inside]
  have writes : (s.pc t).writing = true := by
    cases at' : s.pc t <;> simp [at', Pc.deleting, Pc.writing] at inside ⊢
  have none' : (s.pc u).locksInserters = false :=
    Bool.eq_false_iff.mpr fun holds' => other (inv.locks.inserters_unique holds' holds)
  rw [Pc.locksInserters, Bool.or_eq_false_iff] at none'
  exact ⟨inv.locks.exclusive t u writes, none'⟩

omit [DecidableEq Thread] in
/-- No walk ever stands on a node that was taken out of the list, not even on one whose
address was allocated again. -/
theorem InvAt.pointer_mem (inv : InvAt s nodes) (stands : (s.pc t).pointer = some p) : p ∈ nodes := by
  have here := inv.here t
  cases at' : s.pc t with
  | find index n curr =>
    rw [at'] at here stands
    exact List.mem_of_getElem? (here.2.2.2.2.symm.trans stands)
  | found curr =>
    rw [at'] at here stands
    obtain ⟨q, member, same⟩ := here
    exact Option.some.inj (same.symm.trans stands) ▸ member
  | lastTest mine last =>
    rw [at'] at here stands
    exact Option.some.inj stands ▸ here.2
  | lastNext mine last =>
    rw [at'] at here stands
    exact Option.some.inj stands ▸ here.2.1
  | linkLast mine last =>
    rw [at'] at here stands
    exact Option.some.inj stands ▸ List.mem_of_getLast? here.2
  | cancel index n prev curr =>
    rw [at'] at here stands
    obtain ⟨_, _, _, _, same, _⟩ := here
    exact List.mem_of_getElem? (same.symm.trans stands)
  | snip prev curr =>
    rw [at'] at here stands
    obtain ⟨_, _, same, _⟩ := here
    exact List.mem_of_getElem? (same.symm.trans stands)
  | _ => simp [at', Pc.pointer] at stands

/-- Safety of the dinner list, for any threads and any interleaving. While a deleter
is inside its critical section nobody else is inside theirs, and at most one inserter
is. The list is a chain of live nodes; outside of `cancel_dinner` it holds every
counted dinner, and exactly these while `inserters_lock` is free. No thread ever
follows NULL or a freed node, every pointer of a walk is a node of the list, and every
search ends on one. -/
theorem dinner_list_safety {Thread : Type} [DecidableEq Thread] (start s : State Thread)
    (labels : List (Thread × Oracle)) (init : start.Initial) (run : Run Step start labels s) :
    (∀ t u, u ≠ t → (s.pc t).deleting = true →
      (s.pc u).reading = false ∧ (s.pc u).inserting = false ∧ (s.pc u).deleting = false) ∧
    (∀ t u, (s.pc t).inserting = true → (s.pc u).inserting = true → t = u) ∧
    ∃ nodes, Chain s.next s.turkeyDinners nodes ∧
      ((∀ t, (s.pc t).inCancelDinner = false) → s.dinnerCount ≤ nodes.length) ∧
      (s.insertersLock = none → s.dinnerCount = nodes.length) ∧
      (∀ t, s.pc t ≠ .crashed) ∧
      (∀ t p, (s.pc t).pointer = some p → p ∈ nodes) ∧
      (∀ t curr, s.pc t = .found curr → ∃ p ∈ nodes, curr = some p) ∧
      ∀ p ∈ nodes, s.live p = true := by
  obtain ⟨nodes, inv⟩ := run_inv run ⟨[], init.inv⟩
  refine ⟨fun t u other inside => inv.exclusion other inside, fun t u first second => ?_, nodes, inv.chain,
    inv.count_le, inv.settled, fun t crashed => ?_, fun t p stands => inv.pointer_mem stands,
    fun t curr at' => ?_, inv.live⟩
  · exact inv.locks.inserters_unique (by simp [Pc.locksInserters, first]) (by simp [Pc.locksInserters, second])
  · have here := inv.here t
    rw [crashed] at here
    exact here
  · have here := inv.here t
    rw [at'] at here
    exact here

/-- A searcher, an inserter and a deleter. -/
def threeThreads : State (Fin 3) where
  turkeyDinners := none
  dinnerCount := 0
  next _ := none
  live _ := false
  readers := ∅
  writer := none
  insertersLock := none
  deletersLock := none
  pc t := if t = 0 then .rdlock else if t = 1 then .malloc else .wrlock

theorem threeThreads_initial : threeThreads.Initial :=
  ⟨rfl, rfl, rfl, rfl, rfl, rfl, by decide⟩

/-- The searcher is inside and the inserter has linked its node, not yet counted. -/
theorem dinner_list_safety_half_inserted :
    ∃ labels s, Run Step threeThreads labels s ∧
      s.pc 0 = .searchTest ∧ s.pc 1 = .addRead ∧ s.dinnerCount = 0 ∧ s.turkeyDinners = some 5 ∧
      ∃ nodes, Chain s.next s.turkeyDinners nodes ∧ s.dinnerCount ≤ nodes.length := by
  have trace : (execute (fun s (label : Fin 3 × Oracle) => step s label.1 label.2) threeThreads
      [(1, ⟨5, some 9, 0⟩), (1, ⟨0, none, 0⟩), (0, ⟨0, none, 0⟩), (1, ⟨0, none, 0⟩), (1, ⟨0, none, 0⟩),
        (1, ⟨0, none, 0⟩)]).map (fun s => (s.pc 0, s.pc 1, s.pc 2, s.dinnerCount, s.turkeyDinners)) =
      some (.searchTest, .addRead, .wrlock, 0, some 5) := by decide
  obtain ⟨s, result, facts⟩ := Option.map_eq_some_iff.mp trace
  simp only [Prod.mk.injEq] at facts
  obtain ⟨searcher, inserter, deleter, count, head⟩ := facts
  have run : Run Step threeThreads _ s := run_of_execute result
  obtain ⟨_, _, nodes, chain, counted, _⟩ := dinner_list_safety threeThreads s _ threeThreads_initial run
  refine ⟨_, s, run, searcher, inserter, count, head, nodes, chain, counted fun t => ?_⟩
  match t with
  | 0 => rw [searcher]; rfl
  | 1 => rw [inserter]; rfl
  | 2 => rw [deleter]; rfl

end Cs544.Concur.Dinners
