import Cs544.Concur.Philosophers

/-! Once per cycle: the gates of the philosophers.

A gate that is open, a philosopher past it and a flag that is set are the same token
in three places, as long as only one philosopher opens the gates at a time and it
found all flags really set. The pooled forks do not guarantee that: two philosophers
may hold forks at once and both find all flags set, and then every gate is opened
twice.
-/

set_option autoImplicit false

namespace Cs544.Concur.Philosophers

open Cs544.Library

variable {s s' : State} {p q i k : Phi} {pc : Pc}

/-- The tokens of the gates. One philosopher at most is in its loop; a gate it has
still to open is closed and nobody is past it; one token at most is at a gate or past
it; and together with the flag wherever the loop is not just between opening the gate
and clearing the flag. -/
structure Tokens (s : State) : Prop where
  alone : ∀ b c, (s.pc b).resetting = true → (s.pc c).resetting = true → b = c
  owed : ∀ b i, (s.pc b).owes i = true → s.semPhi i = 0 ∧ (s.pc i).pending = 0
  single : ∀ i, s.semPhi i + (s.pc i).pending ≤ 1
  settled : ∀ i, (∀ b, (s.pc b).owes i = false ∧ s.pc b ≠ .clear i) →
    s.semPhi i + (s.pc i).pending + (s.phi i).toNat ≤ 1

/-- The condition under which the loop is sound: who finds the last flag set finds all
of them set at that moment, and nobody else is in its loop. -/
def Sound (s : State) (p : Phi) : Prop :=
  event s p = .foundAll p →
    (∀ k, s.phi k = true) ∧ ∀ q, q ≠ p → (s.pc q).resetting = false

instance (s : State) (p : Phi) : Decidable (Sound s p) := inferInstanceAs (Decidable (_ → _))

theorem owes_resetting (owes : pc.owes i = true) : pc.resetting = true := by
  cases pc <;> simp [Pc.owes, Pc.resetting] at owes ⊢

theorem untouched_of_outside (outside : pc.resetting = false) (i : Phi) :
    pc.owes i = false ∧ pc ≠ .clear i := by
  cases pc <;> simp [Pc.owes, Pc.resetting] at outside ⊢

theorem goto_pending (same : pc.pending = (s.pc p).pending) (i : Phi) :
    ((s.goto p pc).pc i).pending = (s.pc i).pending := by
  by_cases own : i = p
  · rw [own, goto_self, same]
  · rw [goto_of_ne own]

/-- If nobody but `p` is in the loop, this stays so wherever `p` goes. -/
theorem goto_resetting (nobody : ∀ q, q ≠ p → (s.pc q).resetting = false)
    (resets : ((s.goto p pc).pc q).resetting = true) : q = p := by
  by_contra other
  rw [goto_of_ne other, nobody q other] at resets
  cases resets

theorem owes_clears (at' : s.pc p = .clear k) (b i : Phi) :
    ((s.goto p (if k = 4 then .postLeft else .post (k + 1))).pc b).owes i = (s.pc b).owes i := by
  by_cases own : b = p
  · rw [own, goto_self, at', owes_next]
  · rw [goto_of_ne own]

theorem tokens_initial : Tokens initial := by
  constructor
  · intro b c resets
    cases resets
  · intro b i owes
    cases owes
  · intro i
    exact le_rfl
  · intro i _
    exact le_rfl

/-! ## What a step can do -/

/-- A step outside of the loop: it only moves the token of `p` on, or leaves it. -/
structure Moves (s : State) (p : Phi) (s' : State) : Prop where
  others : ∀ q, q ≠ p → s'.pc q = s.pc q
  before : (s.pc p).resetting = false
  after : (s'.pc p).resetting = false
  gates : ∀ i, i ≠ p → s'.semPhi i = s.semPhi i
  flags : ∀ i, i ≠ p → s'.phi i = s.phi i
  token : s'.semPhi p + (s'.pc p).pending ≤ s.semPhi p + (s.pc p).pending
  flagged : s'.semPhi p + (s'.pc p).pending + (s'.phi p).toNat ≤
    s.semPhi p + (s.pc p).pending + (s.phi p).toNat
  passed : s'.semPhi p + (if event s p = .passes p then 1 else 0) ≤ s.semPhi p

theorem event_eq_passes (passing : event s p = .passes p) : s.pc p = .gate := by
  revert passing
  rw [event]
  split
  · intro _
    assumption
  · split_ifs <;> simp
  · simp

theorem moves_goto {old : Pc} (at' : s.pc p = old) (pc : Pc) (before : old.resetting = false)
    (after : pc.resetting = false) (same : pc.pending = old.pending) (notGate : old ≠ .gate)
    (left right : Nat) : Moves s p { s.goto p pc with semLeft := left, semRight := right } where
  others _ other := goto_of_ne other
  before := at' ▸ before
  after := (congrArg Pc.resetting goto_self).trans after
  gates _ _ := rfl
  flags _ _ := rfl
  token := by simp [State.goto, at', same]
  flagged := by simp [State.goto, at', same]
  passed := by
    have silent : event s p ≠ .passes p := fun passing => notGate (at' ▸ event_eq_passes passing)
    rw [if_neg silent]
    exact le_rfl

theorem moves_gate (at' : s.pc p = .gate) (isOpen : 0 < s.semPhi p) :
    Moves s p { s.goto p .waitLeft with semPhi := Function.update s.semPhi p (s.semPhi p - 1) } where
  others _ other := goto_of_ne other
  before := by rw [at']; rfl
  after := congrArg Pc.resetting goto_self
  gates _ other := Function.update_of_ne other ..
  flags _ _ := rfl
  token := by
    simp [at', State.goto, Pc.pending]
    omega
  flagged := by
    simp [at', State.goto, Pc.pending]
    omega
  passed := by
    simp [at', event]
    omega

theorem moves_flag (at' : s.pc p = .flag) :
    Moves s p { s.goto p (.test 0) with phi := Function.update s.phi p true } where
  others _ other := goto_of_ne other
  before := by rw [at']; rfl
  after := congrArg Pc.resetting goto_self
  gates _ _ := rfl
  flags _ other := Function.update_of_ne other ..
  token := by simp [at', State.goto, Pc.pending]
  flagged := by simp [at', State.goto, Pc.pending]
  passed := by simp [at', event, State.goto]

/-- The steps there are: outside of the loop, into it, and the two kinds in it. -/
theorem step_cases (edge : step s p = some s') :
    Moves s p s' ∨
    ((s.pc p).resetting = false ∧ event s p = .foundAll p ∧ s' = s.goto p (.post 0)) ∨
    (∃ k, s.pc p = .post k ∧
      s' = { s.goto p (.clear k) with semPhi := Function.update s.semPhi k (s.semPhi k + 1) }) ∨
    (∃ k, s.pc p = .clear k ∧ s' = { s.goto p (if k = 4 then .postLeft else .post (k + 1)) with
      phi := Function.update s.phi k false }) := by
  cases at' : s.pc p with
  | gate =>
    simp only [step, at', Option.ite_none_right_eq_some, Option.some.injEq] at edge
    obtain ⟨isOpen, rfl⟩ := edge
    exact .inl (moves_gate at' isOpen)
  | waitLeft =>
    simp only [step, at', Option.ite_none_right_eq_some, Option.some.injEq] at edge
    obtain ⟨_, rfl⟩ := edge
    exact .inl (moves_goto at' .waitRight rfl rfl rfl nofun _ _)
  | waitRight =>
    simp only [step, at', Option.ite_none_right_eq_some, Option.some.injEq] at edge
    obtain ⟨_, rfl⟩ := edge
    exact .inl (moves_goto at' .flag rfl rfl rfl nofun _ _)
  | flag =>
    simp only [step, at', Option.some.injEq] at edge
    cases edge
    exact .inl (moves_flag at')
  | test k =>
    by_cases set : s.phi k = true
    · by_cases last : k = 4
      · cases last
        simp only [step, at', set, if_true, Option.some.injEq] at edge
        exact .inr (.inl ⟨rfl, by simp [event, at', set], edge.symm⟩)
      · simp only [step, at', set, if_true, if_neg last, Option.some.injEq] at edge
        cases edge
        exact .inl (moves_goto at' (.test (k + 1)) rfl rfl rfl nofun _ _)
    · simp only [step, at', set, Bool.false_eq_true, if_false, Option.some.injEq] at edge
      cases edge
      exact .inl (moves_goto at' .postLeft rfl rfl rfl nofun _ _)
  | post k =>
    simp only [step, at', Option.some.injEq] at edge
    exact .inr (.inr (.inl ⟨k, rfl, edge.symm⟩))
  | clear k =>
    simp only [step, at', Option.some.injEq] at edge
    exact .inr (.inr (.inr ⟨k, rfl, edge.symm⟩))
  | postLeft =>
    simp only [step, at', Option.some.injEq] at edge
    cases edge
    exact .inl (moves_goto at' .postRight rfl rfl rfl nofun _ _)
  | postRight =>
    simp only [step, at', Option.some.injEq] at edge
    cases edge
    exact .inl (moves_goto at' .gate rfl rfl rfl nofun _ _)

/-! ## The tokens along a run -/

namespace Tokens

theorem moves (tokens : Tokens s) (moves : Moves s p s') : Tokens s' := by
  -- Who is in the loop after the step is not `p`, and was there before it.
  have inside : ∀ {b}, (s'.pc b).resetting = true → b ≠ p := by
    rintro b resets rfl
    exact Bool.false_ne_true (moves.after.symm.trans resets)
  constructor
  · intro b c resets resets'
    rw [moves.others b (inside resets)] at resets
    rw [moves.others c (inside resets')] at resets'
    exact tokens.alone b c resets resets'
  · intro b i owes
    rw [moves.others b (inside (owes_resetting owes))] at owes
    have closed := tokens.owed b i owes
    by_cases own : i = p
    · have token := moves.token
      rw [← own] at token
      omega
    · rw [moves.gates i own, moves.others i own]
      exact closed
  · intro i
    by_cases own : i = p
    · rw [own]
      exact moves.token.trans (tokens.single p)
    · rw [moves.gates i own, moves.others i own]
      exact tokens.single i
  · intro i untouched
    have before : ∀ b, (s.pc b).owes i = false ∧ s.pc b ≠ .clear i := by
      intro b
      by_cases own : b = p
      · rw [own]
        exact untouched_of_outside moves.before i
      · rw [← moves.others b own]
        exact untouched b
    by_cases own : i = p
    · rw [own] at before ⊢
      exact moves.flagged.trans (tokens.settled p before)
    · rw [moves.gates i own, moves.others i own, moves.flags i own]
      exact tokens.settled i before

/-- Going into the loop with all flags set: all tokens are flags, and all gates are owed. -/
theorem enter (tokens : Tokens s) (outside : (s.pc p).resetting = false) (set : ∀ k, s.phi k = true)
    (nobody : ∀ q, q ≠ p → (s.pc q).resetting = false) : Tokens (s.goto p (.post 0)) := by
  have quiet : ∀ b, (s.pc b).resetting = false := by
    intro b
    by_cases own : b = p
    · exact own ▸ outside
    · exact nobody b own
  have closed : ∀ i, s.semPhi i = 0 ∧ (s.pc i).pending = 0 := by
    intro i
    have settled := tokens.settled i fun b => untouched_of_outside (quiet b) i
    rw [set i, Bool.toNat_true] at settled
    omega
  have pending : ∀ i, ((s.goto p (.post 0)).pc i).pending = 0 := by
    intro i
    rw [goto_pending]
    · exact (closed i).2
    · exact (closed p).2.symm
  constructor
  · intro b c resets resets'
    rw [goto_resetting nobody resets, goto_resetting nobody resets']
  · intro b i _
    exact ⟨(closed i).1, pending i⟩
  · intro i
    rw [pending i]
    exact (closed i).1.le.trans zero_le_one
  · intro i untouched
    have owes := (untouched p).1
    rw [goto_self] at owes
    simp [Pc.owes] at owes

/-- While `p` is in the loop, nobody else is to open a gate or clear a flag. -/
theorem others_outside (tokens : Tokens s) (inside : (s.pc p).resetting = true) (q : Phi)
    (other : q ≠ p) : (s.pc q).resetting = false :=
  Bool.eq_false_iff.mpr fun resets => other (tokens.alone q p resets inside)

theorem opens (tokens : Tokens s) (at' : s.pc p = .post k) :
    Tokens { s.goto p (.clear k) with semPhi := Function.update s.semPhi k (s.semPhi k + 1) } := by
  have nobody := tokens.others_outside (by rw [at']; rfl)
  have pending : ∀ i, ((s.goto p (.clear k)).pc i).pending = (s.pc i).pending := by
    apply goto_pending
    rw [at']
    rfl
  constructor
  · intro b c resets resets'
    rw [goto_resetting nobody resets, goto_resetting nobody resets']
  · intro b i owes
    cases goto_resetting nobody (owes_resetting owes)
    change ((s.goto p (.clear k)).pc p).owes i = true at owes
    rw [goto_self] at owes
    have later : k < i := of_decide_eq_true owes
    have closed := tokens.owed p i (by rw [at']; exact decide_eq_true later.le)
    change Function.update s.semPhi k _ i = 0 ∧ ((s.goto p (.clear k)).pc i).pending = 0
    rw [Function.update_of_ne later.ne', pending]
    exact closed
  · intro i
    change Function.update s.semPhi k _ i + ((s.goto p (.clear k)).pc i).pending ≤ 1
    rw [pending]
    by_cases opened : i = k
    · -- The gate was owed, so it was closed.
      have closed := tokens.owed p k (by rw [at']; exact decide_eq_true le_rfl)
      rw [opened, Function.update_self]
      omega
    · rw [Function.update_of_ne opened]
      exact tokens.single i
  · intro i untouched
    have own := untouched p
    change ((s.goto p (.clear k)).pc p).owes i = false ∧ (s.goto p (.clear k)).pc p ≠ .clear i at own
    rw [goto_self] at own
    have notLater : ¬ k < i := of_decide_eq_false own.1
    have opened : i ≠ k := fun same => own.2 (congrArg Pc.clear same.symm)
    have before : ∀ b, (s.pc b).owes i = false ∧ s.pc b ≠ .clear i := by
      intro b
      by_cases same : b = p
      · rw [same, at']
        have notOwed : ¬ k ≤ i := fun owed => notLater (lt_of_le_of_ne owed opened.symm)
        exact ⟨decide_eq_false notOwed, nofun⟩
      · exact untouched_of_outside (nobody b same) i
    change Function.update s.semPhi k _ i + ((s.goto p (.clear k)).pc i).pending + (s.phi i).toNat ≤ 1
    rw [pending, Function.update_of_ne opened]
    exact tokens.settled i before

theorem clears (tokens : Tokens s) (at' : s.pc p = .clear k) :
    Tokens { s.goto p (if k = 4 then .postLeft else .post (k + 1)) with
      phi := Function.update s.phi k false } := by
  set next : Pc := if k = 4 then .postLeft else .post (k + 1) with next_eq
  have nobody := tokens.others_outside (by rw [at']; rfl)
  have pending : ∀ i, ((s.goto p next).pc i).pending = (s.pc i).pending := by
    apply goto_pending
    rw [at', next_eq]
    split <;> rfl
  have owes : ∀ b i, ((s.goto p next).pc b).owes i = (s.pc b).owes i := owes_clears at'
  constructor
  · intro b c resets resets'
    rw [goto_resetting nobody resets, goto_resetting nobody resets']
  · intro b i owing
    change ((s.goto p next).pc b).owes i = true at owing
    rw [owes] at owing
    change s.semPhi i = 0 ∧ ((s.goto p next).pc i).pending = 0
    rw [pending]
    exact tokens.owed b i owing
  · intro i
    change s.semPhi i + ((s.goto p next).pc i).pending ≤ 1
    rw [pending]
    exact tokens.single i
  · intro i untouched
    change s.semPhi i + ((s.goto p next).pc i).pending + (Function.update s.phi k false i).toNat ≤ 1
    rw [pending]
    by_cases cleared : i = k
    · rw [cleared, Function.update_self]
      exact tokens.single k
    · rw [Function.update_of_ne cleared]
      apply tokens.settled i
      intro b
      constructor
      · rw [← owes]
        exact (untouched b).1
      · by_cases same : b = p
        · rw [same, at']
          exact fun clearing => cleared (Pc.clear.inj clearing).symm
        · exact (untouched_of_outside (nobody b same) i).2

theorem preserved (tokens : Tokens s) (edge : step s p = some s') (sound : Sound s p) : Tokens s' := by
  obtain moves | ⟨outside, found, rfl⟩ | ⟨k, at', rfl⟩ | ⟨k, at', rfl⟩ := step_cases edge
  · exact tokens.moves moves
  · obtain ⟨set, nobody⟩ := sound found
    exact tokens.enter outside set nobody
  · exact tokens.opens at'
  · exact tokens.clears at'

end Tokens

/-! ## The cycles of a run -/

/-- How often gate `i` may be passed before all flags are found set again: once for
every unit of its semaphore, and once if it is still to be opened. -/
def permits (s : State) (i : Phi) : Nat :=
  s.semPhi i + if ∃ b, (s.pc b).owes i = true then 1 else 0

theorem permits_le_one (tokens : Tokens s) : permits s i ≤ 1 := by
  rw [permits]
  split_ifs with owed
  · obtain ⟨b, owes⟩ := owed
    rw [(tokens.owed b i owes).1]
  · have single := tokens.single i
    omega

theorem permits_congr (same : ∀ b, (s'.pc b).owes i = (s.pc b).owes i) (gate : s'.semPhi i = s.semPhi i) :
    permits s' i = permits s i := by
  simp only [permits, same, gate]

theorem event_philosopher (s : State) (p : Phi) : (event s p).philosopher = p := by
  rw [event]
  split
  · rfl
  · split_ifs <;> rfl
  · rfl

theorem permits_moves (moves : Moves s p s') (i : Phi) :
    permits s' i + (if event s p = .passes i then 1 else 0) ≤ permits s i := by
  have same : ∀ b, (s'.pc b).owes i = (s.pc b).owes i := by
    intro b
    by_cases own : b = p
    · rw [own, (untouched_of_outside moves.before i).1, (untouched_of_outside moves.after i).1]
    · rw [moves.others b own]
  by_cases own : i = p
  · cases own
    have passed := moves.passed
    simp only [permits, same]
    omega
  · have silent : event s p ≠ .passes i := by
      intro passing
      have whose := event_philosopher s p
      rw [passing] at whose
      exact own whose
    rw [if_neg silent, permits_congr same (moves.gates i own), Nat.add_zero]

/-- Opening a gate turns the debt into a unit of its semaphore. -/
theorem permits_opens (tokens : Tokens s) (at' : s.pc p = .post k) (i : Phi) :
    permits { s.goto p (.clear k) with semPhi := Function.update s.semPhi k (s.semPhi k + 1) } i =
      permits s i := by
  by_cases opened : i = k
  · have nobody := tokens.others_outside (by rw [at']; rfl)
    have paid : ¬ ∃ b, ((s.goto p (.clear k)).pc b).owes k = true := by
      rintro ⟨b, owes⟩
      cases goto_resetting nobody (owes_resetting owes)
      rw [goto_self] at owes
      exact lt_irrefl k (of_decide_eq_true owes)
    have owed : ∃ b, (s.pc b).owes k = true := ⟨p, by rw [at']; exact decide_eq_true le_rfl⟩
    rw [opened, permits, permits, if_pos owed]
    change Function.update s.semPhi k _ k + _ = _
    rw [Function.update_self, if_neg paid]
  · apply permits_congr
    · intro b
      change ((s.goto p (.clear k)).pc b).owes i = _
      by_cases own : b = p
      · rw [own, goto_self, at']
        have strict : k < i ↔ k ≤ i := (lt_iff_le_and_ne.trans (and_iff_left (Ne.symm opened)))
        exact decide_eq_decide.mpr strict
      · rw [goto_of_ne own]
    · exact Function.update_of_ne opened ..

theorem permits_clears (at' : s.pc p = .clear k) (i : Phi) :
    permits { s.goto p (if k = 4 then .postLeft else .post (k + 1)) with
      phi := Function.update s.phi k false } i = permits s i :=
  permits_congr (fun b => owes_clears at' b i) rfl

/-- A step that does not find all flags set uses up a permit for every passage. -/
theorem permits_step (tokens : Tokens s) (edge : step s p = some s') (silent : event s p ≠ .foundAll p)
    (i : Phi) : permits s' i + (if event s p = .passes i then 1 else 0) ≤ permits s i := by
  obtain moves | ⟨_, found, _⟩ | ⟨k, at', rfl⟩ | ⟨k, at', rfl⟩ := step_cases edge
  · exact permits_moves moves i
  · exact absurd found silent
  · rw [permits_opens tokens at']
    simp [event, at']
  · rw [permits_clears at']
    simp [event, at']

def SoundStep (s : State) (e : Event) (s' : State) : Prop := Step s e s' ∧ Sound s e.philosopher

variable {labels : List Event}

theorem tokens_run (run : Run SoundStep s labels s') (tokens : Tokens s) : Tokens s' :=
  run.invariant Tokens (fun tokens edge => tokens.preserved edge.1.1 edge.2) tokens

/-- Within a cycle the permits pay for every passage. -/
theorem permits_run (run : Run SoundStep s labels s') (tokens : Tokens s)
    (silent : ∀ q, .foundAll q ∉ labels) (i : Phi) :
    permits s' i + labels.count (.passes i) ≤ permits s i := by
  induction run with
  | nil => simp
  | @cons s next _ e labels edge rest ih =>
    obtain ⟨⟨taken, whose⟩, sound⟩ := edge
    have quiet : event s e.philosopher ≠ .foundAll e.philosopher := by
      intro found
      exact silent _ (List.mem_cons.mpr (.inl (found.symm.trans whose)))
    have paid := permits_step tokens taken quiet i
    have later := ih (tokens.preserved taken sound) fun q found => silent q (List.mem_cons_of_mem _ found)
    rw [whose] at paid
    rw [List.count_cons]
    simp only [beq_iff_eq]
    omega

/-- Nobody passes its gate twice without all flags having been found set in between. -/
def OncePerCycle (labels : List Event) : Prop :=
  ∀ i earlier middle later, labels = earlier ++ .passes i :: (middle ++ .passes i :: later) →
    ∃ q, .foundAll q ∈ middle

/-- In every run in which who finds the last flag set finds all of them set, with nobody
else in the loop, no gate is ever open twice and nobody eats twice in a cycle. -/
theorem philosophers_once_per_cycle (labels : List Event) (s : State)
    (run : Run SoundStep initial labels s) :
    (∀ i, s.semPhi i ≤ 1) ∧ OncePerCycle labels := by
  constructor
  · intro i
    have single := (tokens_run run tokens_initial).single i
    omega
  · intro i earlier middle later split
    by_contra none
    push Not at none
    rw [split] at run
    obtain ⟨start, front, back⟩ := run.split
    have regroup : Event.passes i :: (middle ++ .passes i :: later) =
        (.passes i :: (middle ++ [.passes i])) ++ later := by simp
    rw [regroup] at back
    obtain ⟨final, cycle, _⟩ := back.split
    have tokens := tokens_run front tokens_initial
    have silent : ∀ q, .foundAll q ∉ Event.passes i :: (middle ++ [.passes i]) := by
      intro q found
      simp [none q] at found
    have twice := permits_run cycle tokens silent i
    have once := permits_le_one (i := i) tokens
    simp at twice
    omega

theorem run_trace {allowed : State → Phi → Prop} {schedule : List Phi}
    (run : Run (fun s p t => allowed s p ∧ step s p = some t) s schedule s') :
    Run (fun s e t => Step s e t ∧ allowed s e.philosopher) s (trace s schedule) s' := by
  induction run with
  | nil => exact .nil _
  | @cons s next _ p schedule edge _ ih =>
    obtain ⟨meets, taken⟩ := edge
    rw [trace, taken]
    have whose := event_philosopher s p
    refine .cons ⟨⟨?_, ?_⟩, ?_⟩ ih
    · rw [whose]
      exact taken
    · rw [whose]
    · rw [whose]
      exact meets

theorem philosophers_once_per_cycle_quiet :
    ∃ s, Run SoundStep initial (trace initial quietSchedule) s ∧ .foundAll 4 ∈ trace initial quietSchedule ∧
      (∀ i, s.semPhi i ≤ 1) ∧ OncePerCycle (trace initial quietSchedule) := by
  have exists' : (execute (fun s p => if Sound s p then step s p else none) initial quietSchedule).isSome := by
    decide +kernel
  obtain ⟨s, result⟩ := Option.isSome_iff_exists.mp exists'
  have run : Run SoundStep initial (trace initial quietSchedule) s :=
    run_trace ((run_of_execute result).mono fun edge => Option.ite_none_right_eq_some.mp edge)
  refine ⟨s, run, ?_, philosophers_once_per_cycle _ _ run⟩
  decide +kernel

/-- Not every interleaving keeps to a passage per cycle, nor a gate to one unit. -/
theorem philosophers_double_reset :
    ∃ s, Run Step initial (trace initial doubleReset) s ∧ s.semPhi 0 = 2 ∧
      ¬ OncePerCycle (trace initial doubleReset) := by
  have twice : (execute step initial doubleReset).map (fun s => s.semPhi 0) = some 2 := by decide +kernel
  obtain ⟨s, result, gate⟩ := Option.map_eq_some_iff.mp twice
  refine ⟨s, ?_, gate, ?_⟩
  · have run := run_trace
      ((run_of_execute result).mono fun edge => ⟨trivial, edge⟩)
    exact run.mono And.left
  · intro once
    obtain ⟨q, found⟩ := once 1 ((trace initial doubleReset).take 69)
      (((trace initial doubleReset).drop 70).take 6) [] (by decide +kernel)
    revert found
    revert q
    decide +kernel

end Cs544.Concur.Philosophers
