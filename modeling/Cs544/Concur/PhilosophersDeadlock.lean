import Cs544.Concur.PhilosophersFairness
import Cs544.Library.Tokens

/-! When all five philosophers can block.

The forks never block everybody: who waits for one waits for a philosopher that holds
one and waits for nothing. So all five block only at their gates, and there every gate
needs a philosopher that will open it. The loop opens a gate before it clears the flag
behind it, so the flag of the next cycle may be the one that is cleared; then nobody
finds all flags set again.
-/

set_option autoImplicit false

namespace Cs544.Concur.Philosophers

open Cs544.Library

variable {s s' : State} {p q i k : Phi} {pc : Pc}

def Blocked (s : State) (p : Phi) : Prop :=
  match s.pc p with
  | .gate => s.semPhi p = 0
  | .waitLeft => s.semLeft = 0
  | .waitRight => s.semRight = 0
  | _ => False

/-- The threads that have no step are those blocked in `sem_wait`. -/
theorem blocked_iff : Blocked s p ↔ step s p = none := by
  unfold Blocked step
  cases s.pc p <;> simp
  split_ifs <;> simp

instance (s : State) (p : Phi) : Decidable (Blocked s p) :=
  decidable_of_iff ((step s p).isNone = true) (Option.isNone_iff_eq_none.trans blocked_iff.symm)

namespace Pc

def lefts : Pc → Nat
  | gate | waitLeft | postRight => 0
  | _ => 1

def rights : Pc → Nat
  | gate | waitLeft | waitRight => 0
  | _ => 1

/-- Between its own flag and the end of the loop. -/
def deciding : Pc → Bool
  | test _ | post _ | clear _ => true
  | _ => false

end Pc

/-- Behind gate `k` there is a unit, a philosopher past it, a flag, or a loop that will
open it. -/
def Covered (s : State) (k : Phi) : Prop :=
  0 < s.semPhi k + (s.pc k).pending + (s.phi k).toNat ∨ ∃ q, (s.pc q).owes k = true

instance (s : State) (k : Phi) : Decidable (Covered s k) := inferInstanceAs (Decidable (_ ∨ _))

/-- Nobody waits for something that will not come. Every fork is in its pool or in a
hand; if all flags are set, somebody has still to see it; and no gate stays closed. -/
structure Progress (s : State) : Prop where
  left : s.semLeft + held Pc.lefts s.pc = 3
  right : s.semRight + held Pc.rights s.pc = 2
  seen : (∀ k, s.phi k = true) → ∃ p, (s.pc p).deciding = true
  covered : ∀ k, Covered s k

/-- The condition under which the loop loses no flag: when it clears a flag behind an
open gate, the philosopher of that gate has not set the flag anew, unless the gate is
to be opened once more anyway. -/
def Kept (s : State) (p : Phi) : Prop :=
  ∀ k, s.pc p = .clear k → 0 < s.semPhi k + (s.pc k).pending ∨ ∃ q, (s.pc q).owes k = true

instance (s : State) (p : Phi) : Decidable (Kept s p) := inferInstanceAs (Decidable (∀ _, _ → _))

theorem progress_initial : Progress initial where
  left := by
    have none : held Pc.lefts initial.pc = 0 := held_eq_zero.mpr fun _ => rfl
    rw [none]
    rfl
  right := by
    have none : held Pc.rights initial.pc = 0 := held_eq_zero.mpr fun _ => rfl
    rw [none]
    rfl
  seen := by decide
  covered := by decide

theorem Progress.not_all_blocked (progress : Progress s) : ¬ ∀ p, Blocked s p := by
  intro blocked
  -- Nobody blocked has a right fork, so nobody waits for one; then the same on the left.
  have rights : held Pc.rights s.pc = 0 := by
    rw [held_eq_zero]
    intro p
    have here := blocked p
    unfold Blocked at here
    cases at' : s.pc p <;> simp_all [Pc.rights]
  have right := progress.right
  have lefts : held Pc.lefts s.pc = 0 := by
    rw [held_eq_zero]
    intro p
    have here := blocked p
    unfold Blocked at here
    cases at' : s.pc p <;> simp_all [Pc.lefts]
  have left := progress.left
  have gates : ∀ p, s.pc p = .gate ∧ s.semPhi p = 0 := by
    intro p
    have here := blocked p
    unfold Blocked at here
    cases at' : s.pc p <;> simp_all
  have flags : ∀ k, s.phi k = true := by
    intro k
    rcases progress.covered k with token | ⟨q, owes⟩
    · rw [(gates k).2, (gates k).1] at token
      cases set : s.phi k with
      | false => simp [Pc.pending, set] at token
      | true => rfl
    · rw [(gates q).1] at owes
      cases owes
  obtain ⟨p, deciding⟩ := progress.seen flags
  rw [(gates p).1] at deciding
  cases deciding

/-! ## What a step keeps -/

section
variable (moved : s'.pc = Function.update s.pc p pc)
include moved

theorem moved_self : s'.pc p = pc := by rw [moved, Function.update_self]

theorem moved_of_ne (other : q ≠ p) : s'.pc q = s.pc q := by rw [moved, Function.update_of_ne other]

theorem moved_pending (same : pc.pending = (s.pc p).pending) (k : Phi) :
    (s'.pc k).pending = (s.pc k).pending := by
  by_cases own : k = p
  · rw [own, moved_self moved, same]
  · rw [moved_of_ne moved own]

/-- The forks `p` takes or puts back are the ones its pool loses or gets. -/
theorem moved_forks (left : s'.semLeft + pc.lefts = s.semLeft + (s.pc p).lefts)
    (right : s'.semRight + pc.rights = s.semRight + (s.pc p).rights) :
    s'.semLeft + held Pc.lefts s'.pc = s.semLeft + held Pc.lefts s.pc ∧
      s'.semRight + held Pc.rights s'.pc = s.semRight + held Pc.rights s.pc := by
  have lefts := held_update Pc.lefts s.pc p pc
  have rights := held_update Pc.rights s.pc p pc
  rw [moved]
  omega

theorem moved_deciding (outside : (s.pc p).deciding = false)
    (deciding : ∃ q, (s.pc q).deciding = true) : ∃ q, (s'.pc q).deciding = true := by
  obtain ⟨q, decides⟩ := deciding
  have other : q ≠ p := by
    rintro rfl
    exact Bool.false_ne_true (outside.symm.trans decides)
  exact ⟨q, by rw [moved_of_ne moved other]; exact decides⟩

theorem moved_owes (keeps : (s.pc p).owes k = true → pc.owes k = true)
    (owed : ∃ q, (s.pc q).owes k = true) : ∃ q, (s'.pc q).owes k = true := by
  obtain ⟨q, owes⟩ := owed
  refine ⟨q, ?_⟩
  by_cases own : q = p
  · rw [own, moved_self moved]
    exact keeps (own ▸ owes)
  · rw [moved_of_ne moved own]
    exact owes

theorem moved_covered (keeps : (s.pc p).owes k = true → pc.owes k = true)
    (token : s.semPhi k + (s.pc k).pending + (s.phi k).toNat ≤
      s'.semPhi k + (s'.pc k).pending + (s'.phi k).toNat) (covered : Covered s k) : Covered s' k := by
  rcases covered with present | owed
  · exact .inl (present.trans_le token)
  · exact .inr (moved_owes moved keeps owed)

end

namespace Progress

theorem walks (progress : Progress s) {old : Pc} (at' : s.pc p = old) (left right : Nat)
    (lefts : left + pc.lefts = s.semLeft + old.lefts) (rights : right + pc.rights = s.semRight + old.rights)
    (same : pc.pending = old.pending) (free : ∀ k, old.owes k = false)
    (seen : (∀ k, s.phi k = true) → old.deciding = false ∨ pc.deciding = true) :
    Progress { s.goto p pc with semLeft := left, semRight := right } := by
  subst at'
  set s' : State := { s.goto p pc with semLeft := left, semRight := right }
  have moved : s'.pc = Function.update s.pc p pc := rfl
  obtain ⟨lefts, rights⟩ := moved_forks moved lefts rights
  refine ⟨lefts.trans progress.left, rights.trans progress.right, fun all => ?_, fun k => ?_⟩
  · rcases seen all with outside | decides
    · exact moved_deciding moved outside (progress.seen all)
    · exact ⟨p, (congrArg Pc.deciding goto_self).trans decides⟩
  · refine moved_covered moved (fun owes => ?_) ?_ (progress.covered k)
    · rw [free k] at owes
      cases owes
    · rw [moved_pending moved same]
      exact le_rfl

theorem passes (progress : Progress s) (at' : s.pc p = .gate) (isOpen : 0 < s.semPhi p) :
    Progress { s.goto p .waitLeft with semPhi := Function.update s.semPhi p (s.semPhi p - 1) } := by
  set s' : State := { s.goto p .waitLeft with semPhi := Function.update s.semPhi p (s.semPhi p - 1) }
  have moved : s'.pc = Function.update s.pc p .waitLeft := rfl
  obtain ⟨lefts, rights⟩ := moved_forks moved (by rw [at']; rfl) (by rw [at']; rfl)
  refine ⟨lefts.trans progress.left, rights.trans progress.right, fun all => ?_, fun k => ?_⟩
  · exact moved_deciding moved (by rw [at']; rfl) (progress.seen all)
  · apply moved_covered moved _ _ (progress.covered k)
    · rw [at']
      intro owes
      cases owes
    · by_cases own : k = p
      · simp [own, s', at', State.goto, Pc.pending]
        omega
      · rw [moved_of_ne moved own]
        simp [s', own, State.goto]

theorem flags (progress : Progress s) (at' : s.pc p = .flag) :
    Progress { s.goto p (.test 0) with phi := Function.update s.phi p true } := by
  set s' : State := { s.goto p (.test 0) with phi := Function.update s.phi p true }
  have moved : s'.pc = Function.update s.pc p (.test 0) := rfl
  obtain ⟨lefts, rights⟩ := moved_forks moved (by rw [at']; rfl) (by rw [at']; rfl)
  refine ⟨lefts.trans progress.left, rights.trans progress.right, fun _ => ⟨p, ?_⟩, fun k => ?_⟩
  · rw [moved_self moved]
    rfl
  · by_cases own : k = p
    · left
      simp [own, s']
    · apply moved_covered moved _ _ (progress.covered k)
      · rw [at']
        intro owes
        cases owes
      · rw [moved_of_ne moved own]
        simp [s', own, State.goto]

theorem opens (progress : Progress s) (at' : s.pc p = .post i) :
    Progress { s.goto p (.clear i) with semPhi := Function.update s.semPhi i (s.semPhi i + 1) } := by
  set s' : State := { s.goto p (.clear i) with semPhi := Function.update s.semPhi i (s.semPhi i + 1) }
  have moved : s'.pc = Function.update s.pc p (.clear i) := rfl
  obtain ⟨lefts, rights⟩ := moved_forks moved (by rw [at']; rfl) (by rw [at']; rfl)
  refine ⟨lefts.trans progress.left, rights.trans progress.right, fun _ => ⟨p, ?_⟩, fun k => ?_⟩
  · rw [moved_self moved]
    rfl
  · by_cases opened : k = i
    · left
      simp [opened, s']
    · apply moved_covered moved _ _ (progress.covered k)
      · rw [at']
        intro owes
        have reached : i ≤ k := of_decide_eq_true owes
        exact decide_eq_true (lt_of_le_of_ne reached (Ne.symm opened))
      · rw [moved_pending moved (by rw [at']; rfl)]
        simp [s', opened, State.goto]

/-- Clearing a flag is where a gate may be left closed for good. -/
theorem clears (progress : Progress s) (at' : s.pc p = .clear i) (kept : Kept s p) :
    Progress { s.goto p (if i = 4 then .postLeft else .post (i + 1)) with
      phi := Function.update s.phi i false } := by
  set next : Pc := if i = 4 then .postLeft else .post (i + 1) with next_eq
  set s' : State := { s.goto p next with phi := Function.update s.phi i false }
  have moved : s'.pc = Function.update s.pc p next := rfl
  have places : next.lefts = 1 ∧ next.rights = 1 ∧ next.pending = 0 := by
    rw [next_eq]
    split_ifs <;> exact ⟨rfl, rfl, rfl⟩
  have owes (k : Phi) (owing : (s.pc p).owes k = true) : next.owes k = true := by
    rw [next_eq, owes_next, ← at']
    exact owing
  have pending : (s'.pc i).pending = (s.pc i).pending :=
    moved_pending moved (by rw [at', places.2.2]; rfl) i
  obtain ⟨lefts, rights⟩ := moved_forks moved (by rw [at', places.1]; rfl) (by rw [at', places.2.1]; rfl)
  refine ⟨lefts.trans progress.left, rights.trans progress.right, fun all => ?_, fun k => ?_⟩
  · have cleared := all i
    simp [s'] at cleared
  · by_cases cleared : k = i
    · subst cleared
      rcases kept k at' with token | owed
      · left
        change 0 < s.semPhi k + (s'.pc k).pending + _
        omega
      · exact .inr (moved_owes moved (owes k) owed)
    · apply moved_covered moved (owes k) _ (progress.covered k)
      rw [moved_pending moved (by rw [at', places.2.2]; rfl)]
      simp [s', cleared, State.goto]

theorem preserved (progress : Progress s) (edge : step s p = some s') (kept : Kept s p) : Progress s' := by
  cases at' : s.pc p with
  | gate =>
    simp only [step, at', Option.ite_none_right_eq_some, Option.some.injEq] at edge
    obtain ⟨isOpen, rfl⟩ := edge
    exact progress.passes at' isOpen
  | waitLeft =>
    simp only [step, at', Option.ite_none_right_eq_some, Option.some.injEq] at edge
    obtain ⟨available, rfl⟩ := edge
    exact progress.walks at' _ _ (by simp only [Pc.lefts]; omega) rfl rfl (fun _ => rfl) fun _ => .inl rfl
  | waitRight =>
    simp only [step, at', Option.ite_none_right_eq_some, Option.some.injEq] at edge
    obtain ⟨available, rfl⟩ := edge
    exact progress.walks at' _ _ rfl (by simp only [Pc.rights]; omega) rfl (fun _ => rfl) fun _ => .inl rfl
  | flag =>
    simp only [step, at', Option.some.injEq] at edge
    cases edge
    exact progress.flags at'
  | test k =>
    by_cases set : s.phi k = true
    · simp only [step, at', set, if_true, Option.some.injEq] at edge
      cases edge
      split_ifs
      · exact progress.walks at' _ _ rfl rfl rfl (fun _ => rfl) fun _ => .inr rfl
      · exact progress.walks at' _ _ rfl rfl rfl (fun _ => rfl) fun _ => .inr rfl
    · simp only [step, at', set, Bool.false_eq_true, if_false, Option.some.injEq] at edge
      cases edge
      exact progress.walks at' _ _ rfl rfl rfl (fun _ => rfl) fun all => absurd (all k) set
  | post k =>
    simp only [step, at', Option.some.injEq] at edge
    cases edge
    exact progress.opens at'
  | clear k =>
    simp only [step, at', Option.some.injEq] at edge
    cases edge
    exact progress.clears at' kept
  | postLeft =>
    simp only [step, at', Option.some.injEq] at edge
    cases edge
    exact progress.walks at' _ _ rfl rfl rfl (fun _ => rfl) fun _ => .inl rfl
  | postRight =>
    simp only [step, at', Option.some.injEq] at edge
    cases edge
    exact progress.walks at' _ _ rfl rfl rfl (fun _ => rfl) fun _ => .inl rfl

end Progress

/-! ## Deadlock -/

def KeptStep (s : State) (e : Event) (s' : State) : Prop := Step s e s' ∧ Kept s e.philosopher

/-- In every run whose loops clear no flag that was set anew, the five philosophers are
never all blocked. -/
theorem philosophers_no_deadlock (labels : List Event) (s : State) (run : Run KeptStep initial labels s) :
    ¬ ∀ p, Blocked s p := by
  have progress : Progress s :=
    run.invariant Progress (fun progress edge => progress.preserved edge.1.1 edge.2) progress_initial
  exact progress.not_all_blocked

theorem philosophers_no_deadlock_quiet :
    ∃ s, Run KeptStep initial (trace initial quietSchedule) s ∧ .foundAll 4 ∈ trace initial quietSchedule ∧
      ¬ ∀ p, Blocked s p := by
  have exists' : (execute (fun s p => if Kept s p then step s p else none) initial quietSchedule).isSome := by
    decide +kernel
  obtain ⟨s, result⟩ := Option.isSome_iff_exists.mp exists'
  have run : Run KeptStep initial (trace initial quietSchedule) s :=
    run_trace ((run_of_execute result).mono fun edge => Option.ite_none_right_eq_some.mp edge)
  refine ⟨s, run, ?_, philosophers_no_deadlock _ _ run⟩
  decide +kernel

/-- A flag set between the opening of its gate and its clearing is lost, and all five
block for good. -/
theorem philosophers_deadlock :
    ∃ s, Run Step initial (trace initial lostFlag) s ∧ ∀ p, Blocked s p := by
  have stuck : (execute step initial lostFlag).map (fun s => decide (∀ p, Blocked s p)) = some true := by
    decide +kernel
  obtain ⟨s, result, blocked⟩ := Option.map_eq_some_iff.mp stuck
  refine ⟨s, ?_, of_decide_eq_true blocked⟩
  have run := run_trace
    ((run_of_execute result).mono fun edge => ⟨trivial, edge⟩)
  exact run.mono And.left

end Cs544.Concur.Philosophers
