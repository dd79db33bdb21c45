import Mathlib.Tactic.Linarith
import Cs544.Sched.RtBandwidth

/-! No run time leaks.

What one CPU has lent has been borrowed by others. While they are of the same root domain, a
CPU that goes offline gets back all that it wants and `BUG_ON(want)` is not hit.
-/

set_option autoImplicit false

namespace Cs544.Sched

open Cs544.Library

variable {n : Nat} {s t : Bandwidth n} {i j self own iter : Fin n} {l mask : List (Fin n)} {P : Nat → Bool}
  {want overrun deltaExec diff : Int} {weight : Nat}

theorem s64_eq {x : Int} (low : -2 ^ 63 ≤ x) (high : x < 2 ^ 63) : s64 x = x := by
  rw [s64, Int.bmod_eq_of_le] <;> omega

/-! ## The invariant -/

/-- A CPU whose run time may be lent. -/
def RtRq.Lends (rq : RtRq) : Prop := rq.rtRuntime ≠ runtimeInf

instance (rq : RtRq) : Decidable rq.Lends := inferInstanceAs (Decidable (_ ≠ _))

/-- The run time that a CPU of these root domains has, if it may be lent. -/
def granted (P : Nat → Bool) (rq : RtRq) : Int := if P rq.rd ∧ rq.Lends then rq.rtRuntime else 0

/-- The run time that it was given. -/
def share (P : Nat → Bool) (runtime : Int) (rq : RtRq) : Int := if P rq.rd ∧ rq.Lends then runtime else 0

/-- Together the CPUs of these root domains have what they were given. -/
def Even (P : Nat → Bool) (s : Bandwidth n) : Prop := held (granted P) s.rq = held (share P s.given) s.rq

def everywhere : Nat → Bool := fun _ => true

/-- A run time that all CPUs may have at once. -/
def FitsRuntime (n : Nat) (runtime : Int) : Prop := runtime = runtimeInf ∨ 0 ≤ runtime ∧ n * runtime < 2 ^ 63

structure RtBandwidth.Fits (n : Nat) (rtB : RtBandwidth) : Prop where
  period : 0 ≤ rtB.rtPeriod ∧ rtB.rtPeriod < 2 ^ 63
  runtime : FitsRuntime n rtB.rtRuntime

/-- A throttled CPU has some time to be forgiven, so that the period timer cares for it. -/
structure Sane (s : Bandwidth n) : Prop where
  few : n ≤ 2 ^ 22
  fits : s.rtB.Fits n
  runtime : ∀ i, 0 ≤ (s.rq i).rtRuntime ∧ (s.rq i).rtRuntime ≤ runtimeInf
  time : ∀ i, 0 ≤ (s.rq i).rtTime ∧ (s.rq i).rtTime < 2 ^ 63
  throttled : ∀ i, (s.rq i).rtThrottled → 0 < (s.rq i).rtTime
  unlimited : s.given = runtimeInf → ∀ i, (s.rq i).rtRuntime = runtimeInf

/-- All CPUs together have what they were given. -/
structure Conserved (s : Bandwidth n) : Prop extends Sane s where
  total : Even everywhere s

/-! ## What a loop leaves alone -/

/-- Nothing but run times is different, and the same CPUs have a limit. -/
structure Moved (s t : Bandwidth n) : Prop where
  frame : t = { s with rq := t.rq }
  rq : ∀ i, t.rq i = { s.rq i with rtRuntime := (t.rq i).rtRuntime }
  lends : ∀ i, (t.rq i).Lends ↔ (s.rq i).Lends

namespace Moved

theorem refl (s : Bandwidth n) : Moved s s := ⟨rfl, fun _ => rfl, fun _ => Iff.rfl⟩

theorem trans {u : Bandwidth n} (first : Moved s t) (second : Moved t u) : Moved s u where
  frame := by
    rw [second.frame, first.frame]
  rq i := by
    rw [second.rq i, first.rq i]
  lends i := (second.lends i).trans (first.lends i)

theorem rtB (moved : Moved s t) : t.rtB = s.rtB := by rw [moved.frame]

theorem enabled (moved : Moved s t) : t.rtBandwidthEnabled = s.rtBandwidthEnabled := by
  rw [moved.frame]
  rfl

theorem handler (moved : Moved s t) : t.handler = s.handler := by rw [moved.frame]

theorem given (moved : Moved s t) : t.given = s.given := by
  rw [moved.frame]
  rfl

theorem rtTime (moved : Moved s t) (i : Fin n) : (t.rq i).rtTime = (s.rq i).rtTime := by rw [moved.rq i]

theorem rtThrottled (moved : Moved s t) (i : Fin n) : (t.rq i).rtThrottled = (s.rq i).rtThrottled := by
  rw [moved.rq i]

theorem rtNrRunning (moved : Moved s t) (i : Fin n) : (t.rq i).rtNrRunning = (s.rq i).rtNrRunning := by
  rw [moved.rq i]

theorem needResched (moved : Moved s t) (i : Fin n) : (t.rq i).needResched = (s.rq i).needResched := by
  rw [moved.rq i]

theorem rd (moved : Moved s t) (i : Fin n) : (t.rq i).rd = (s.rq i).rd := by rw [moved.rq i]

theorem share_eq (moved : Moved s t) (P : Nat → Bool) (runtime : Int) :
    held (share P runtime) t.rq = held (share P runtime) s.rq :=
  held_congr fun i => if_congr (and_congr (by rw [moved.rd]) (moved.lends i)) rfl rfl

theorem even (moved : Moved s t) (total : held (granted P) t.rq = held (granted P) s.rq) (even : Even P s) :
    Even P t := by
  rw [Even, total, moved.given, moved.share_eq]
  exact even

end Moved

namespace Bandwidth

@[simp] theorem set_self (s : Bandwidth n) (i : Fin n) (rq : RtRq) : (s.set i rq).rq i = rq :=
  Function.update_self ..

theorem set_of_ne (s : Bandwidth n) (rq : RtRq) (other : j ≠ i) : (s.set i rq).rq j = s.rq j :=
  Function.update_of_ne other ..

@[simp] theorem set_rtB (s : Bandwidth n) (i : Fin n) (rq : RtRq) : (s.set i rq).rtB = s.rtB := rfl

@[simp] theorem set_given (s : Bandwidth n) (i : Fin n) (rq : RtRq) : (s.set i rq).given = s.given := rfl

@[simp] theorem addRuntime_self (s : Bandwidth n) (i : Fin n) (diff : Int) :
    ((s.addRuntime i diff).rq i).rtRuntime = (s.rq i).rtRuntime + diff := by
  rw [addRuntime, set_self]

theorem addRuntime_of_ne (s : Bandwidth n) (diff : Int) (other : j ≠ i) : (s.addRuntime i diff).rq j = s.rq j :=
  s.set_of_ne _ other

theorem moved_addRuntime (lends : (s.rq i).Lends) (finite : (s.rq i).rtRuntime + diff ≠ runtimeInf) :
    Moved s (s.addRuntime i diff) := by
  refine ⟨rfl, fun j => ?_, fun j => ?_⟩ <;> by_cases here : j = i
  · rw [here, addRuntime, set_self]
  · rw [addRuntime_of_ne s diff here]
  · rw [here, RtRq.Lends, addRuntime_self]
    exact iff_of_true finite lends
  · rw [addRuntime_of_ne s diff here]

theorem mem_span {rd : Nat} : i ∈ s.span rd ↔ (s.rq i).rd = rd := by simp [span]

end Bandwidth

open Bandwidth

/-! ## Transfers -/

theorem granted_of {rq : RtRq} (inside : P rq.rd) (lends : rq.Lends) : granted P rq = rq.rtRuntime :=
  if_pos ⟨inside, lends⟩

theorem share_of {rq : RtRq} {runtime : Int} (inside : P rq.rd) (lends : rq.Lends) : share P runtime rq = runtime :=
  if_pos ⟨inside, lends⟩

theorem granted_everywhere {rq : RtRq} (lends : rq.Lends) : granted everywhere rq = rq.rtRuntime := granted_of rfl lends

theorem fitsRuntime_sysctl (few : n ≤ 2 ^ 22) (runtime : BitVec 32) :
    FitsRuntime n (if runtime.toInt < 0 then runtimeInf else runtime.toInt * 1000) := by
  have small := runtime.toInt_lt
  split_ifs with unlimited
  · exact .inl rfl
  · have all : (n : Int) * (runtime.toInt * 1000) ≤ 2 ^ 22 * (2 ^ 31 * 1000) :=
      Int.mul_le_mul (by exact_mod_cast few) (by omega) (by omega) (by decide)
    exact .inr ⟨by omega, by omega⟩

theorem FitsRuntime.range {runtime : Int} (fits : FitsRuntime n runtime) (i : Fin n) :
    0 ≤ runtime ∧ runtime ≤ runtimeInf := by
  rcases fits with unlimited | ⟨nonneg, total⟩
  · rw [unlimited]
    decide
  · have some' : (1 : Int) ≤ n := by have inside := i.isLt; omega
    have one := Int.mul_le_mul_of_nonneg_right some' nonneg
    rw [runtimeInf]
    omega

namespace Sane

theorem fitsGiven (sane : Sane s) : FitsRuntime n s.given := by
  rw [given]
  split_ifs
  · exact fitsRuntime_sysctl sane.few s.sysctlSchedRtRuntime
  · exact sane.fits.runtime

theorem limited (sane : Sane s) (lends : (s.rq i).Lends) : s.given ≠ runtimeInf :=
  fun none' => lends (sane.unlimited none' i)

theorem granted_nonneg (sane : Sane s) (P : Nat → Bool) (i : Fin n) : 0 ≤ granted P (s.rq i) := by
  rw [granted]
  split_ifs
  · exact (sane.runtime i).1
  · exact Int.le_refl 0

theorem share_range (sane : Sane s) (P : Nat → Bool) (limited : s.given ≠ runtimeInf) (i : Fin n) :
    0 ≤ share P s.given (s.rq i) ∧ share P s.given (s.rq i) ≤ s.given := by
  have nonneg := (sane.fitsGiven.resolve_left limited).1
  rw [share]
  split_ifs
  · exact ⟨nonneg, Int.le_refl _⟩
  · exact ⟨Int.le_refl 0, nonneg⟩

theorem moved (sane : Sane s) (moved : Moved s t)
    (runtime : ∀ i, 0 ≤ (t.rq i).rtRuntime ∧ (t.rq i).rtRuntime ≤ runtimeInf) : Sane t where
  few := sane.few
  fits := by
    rw [moved.rtB]
    exact sane.fits
  runtime := runtime
  time i := by
    rw [moved.rtTime]
    exact sane.time i
  throttled i := by
    rw [moved.rtThrottled, moved.rtTime]
    exact sane.throttled i
  unlimited none' i := by
    rw [moved.given] at none'
    have still : ¬ (t.rq i).Lends := (moved.lends i).not.mpr fun lends => sane.limited lends none'
    exact not_not.mp still

theorem set (sane : Sane s) {rq : RtRq} (runtime : 0 ≤ rq.rtRuntime ∧ rq.rtRuntime ≤ runtimeInf)
    (time : 0 ≤ rq.rtTime ∧ rq.rtTime < 2 ^ 63) (throttled : rq.rtThrottled → 0 < rq.rtTime)
    (unlimited : s.given = runtimeInf → rq.rtRuntime = runtimeInf) : Sane (s.set i rq) := by
  have there (j : Fin n) (apart : j ≠ i) : (s.set i rq).rq j = s.rq j := s.set_of_ne rq apart
  refine ⟨sane.few, sane.fits, fun j => ?_, fun j => ?_, fun j => ?_, fun none' j => ?_⟩ <;>
    by_cases apart : j = i
  · rwa [apart, set_self]
  · rw [there j apart]
    exact sane.runtime j
  · rwa [apart, set_self]
  · rw [there j apart]
    exact sane.time j
  · rwa [apart, set_self]
  · rw [there j apart]
    exact sane.throttled j
  · rw [apart, set_self]
    exact unlimited none'
  · rw [there j apart]
    exact sane.unlimited none' j

end Sane

namespace Conserved

theorem held_le (conserved : Conserved s) (limited : s.given ≠ runtimeInf) :
    held (granted everywhere) s.rq ≤ n * s.given := by
  have total := conserved.total
  have bound : held (share everywhere s.given) s.rq ≤ _ :=
    held_le_card fun i => (conserved.share_range everywhere limited i).2
  rw [Even] at total
  rwa [Fintype.card_fin, nsmul_eq_mul, ← total] at bound

theorem held_lt (conserved : Conserved s) (limited : s.given ≠ runtimeInf) :
    held (granted everywhere) s.rq < 2 ^ 63 :=
  lt_of_le_of_lt (conserved.held_le limited) (conserved.fitsGiven.resolve_left limited).2

theorem runtime_le (conserved : Conserved s) (lends : (s.rq i).Lends) : (s.rq i).rtRuntime ≤ n * s.given := by
  have one := le_held (conserved.granted_nonneg everywhere) i
  rw [granted_everywhere lends] at one
  exact one.trans (conserved.held_le (conserved.limited lends))

theorem runtime_lt (conserved : Conserved s) (lends : (s.rq i).Lends) : (s.rq i).rtRuntime < 2 ^ 63 :=
  lt_of_le_of_lt (conserved.runtime_le lends) (conserved.fitsGiven.resolve_left (conserved.limited lends)).2

theorem add_lt (conserved : Conserved s) (here : (s.rq i).Lends) (there : (s.rq j).Lends) (apart : i ≠ j) :
    (s.rq i).rtRuntime + (s.rq j).rtRuntime < 2 ^ 63 := by
  have both := add_le_held (conserved.granted_nonneg everywhere) apart
  rw [granted_everywhere here, granted_everywhere there] at both
  exact lt_of_le_of_lt both (conserved.held_lt (conserved.limited here))

/-- The spare time of a CPU is not negative as `s64`, unless it is. -/
theorem s64_spare (conserved : Conserved s) (lends : (s.rq i).Lends) :
    s64 ((s.rq i).rtRuntime - (s.rq i).rtTime) = (s.rq i).rtRuntime - (s.rq i).rtTime := by
  have runtime := conserved.runtime i
  have small := conserved.runtime_lt lends
  have time := conserved.time i
  exact s64_eq (by omega) (by omega)

end Conserved

theorem held_addRuntime (P : Nat → Bool) (lends : (s.rq i).Lends) (finite : (s.rq i).rtRuntime + diff ≠ runtimeInf) :
    held (granted P) (s.addRuntime i diff).rq = held (granted P) s.rq + if P (s.rq i).rd then diff else 0 := by
  have changed := held_update (granted P) s.rq i { s.rq i with rtRuntime := (s.rq i).rtRuntime + diff }
  have after : ({ s.rq i with rtRuntime := (s.rq i).rtRuntime + diff } : RtRq).Lends := finite
  rw [addRuntime, Bandwidth.set]
  dsimp only at changed ⊢
  by_cases inside : P (s.rq i).rd
  · have later : granted P { s.rq i with rtRuntime := (s.rq i).rtRuntime + diff } = (s.rq i).rtRuntime + diff :=
      if_pos ⟨inside, after⟩
    rw [granted_of inside lends, later] at changed
    rw [if_pos inside]
    linarith
  · have before : granted P (s.rq i) = 0 := if_neg fun both => inside both.1
    have later : granted P { s.rq i with rtRuntime := (s.rq i).rtRuntime + diff } = 0 := if_neg fun both => inside both.1
    rw [before, later, Int.add_zero, Int.add_zero] at changed
    rw [if_neg inside, Int.add_zero]
    exact changed

/-- One CPU lends a part of its run time to another. -/
theorem Conserved.lend (conserved : Conserved s) (lender : (s.rq iter).Lends) (borrower : (s.rq own).Lends)
    (apart : iter ≠ own) (rest : 0 ≤ (s.rq iter).rtRuntime - diff ∧ (s.rq iter).rtRuntime - diff < runtimeInf)
    (sum : 0 ≤ (s.rq own).rtRuntime + diff ∧ (s.rq own).rtRuntime + diff < runtimeInf) :
    let t := (s.addRuntime iter (-diff)).addRuntime own diff
    Conserved t ∧ Moved s t ∧
      ∀ P : Nat → Bool, P (s.rq iter).rd = P (s.rq own).rd → held (granted P) t.rq = held (granted P) s.rq := by
  have given : (s.rq iter).rtRuntime + -diff ≠ runtimeInf := by omega
  have same : (s.addRuntime iter (-diff)).rq own = s.rq own := s.addRuntime_of_ne _ apart.symm
  have taken : ((s.addRuntime iter (-diff)).rq own).rtRuntime + diff ≠ runtimeInf := by
    rw [same]
    omega
  have borrower' : ((s.addRuntime iter (-diff)).rq own).Lends := by rwa [same]
  have moved := (moved_addRuntime lender given).trans (moved_addRuntime borrower' taken)
  have total (P : Nat → Bool) (alike : P (s.rq iter).rd = P (s.rq own).rd) :
      held (granted P) ((s.addRuntime iter (-diff)).addRuntime own diff).rq = held (granted P) s.rq := by
    rw [held_addRuntime P borrower' taken, held_addRuntime P lender given, same, alike]
    split_ifs <;> omega
  refine ⟨⟨conserved.toSane.moved moved fun i => ?_, moved.even (total everywhere rfl) conserved.total⟩, moved, total⟩
  by_cases here : i = own
  · subst here
    rw [addRuntime_self, same]
    omega
  · rw [addRuntime_of_ne _ _ here]
    by_cases there : i = iter
    · subst there
      rw [addRuntime_self]
      omega
    · rw [addRuntime_of_ne _ _ there]
      exact conserved.runtime i

/-! ## Borrowing -/

/-- What is borrowed leaves both CPUs with a run time that is finite. -/
theorem borrowedTime_range (weight : Nat) (conserved : Conserved s) (lender : (s.rq iter).Lends)
    (borrower : (s.rq own).Lends) (apart : iter ≠ own) (spare : s64 ((s.rq iter).rtRuntime - (s.rq iter).rtTime) > 0) :
    let diff := borrowedTime s weight own iter
    (0 ≤ (s.rq iter).rtRuntime - diff ∧ (s.rq iter).rtRuntime - diff < runtimeInf) ∧
      (0 ≤ (s.rq own).rtRuntime + diff ∧ (s.rq own).rtRuntime + diff < runtimeInf) := by
  have period := conserved.fits.period
  have both := conserved.add_lt lender borrower apart
  have time := conserved.time iter
  have runtime := conserved.runtime own
  rw [conserved.s64_spare lender] at spare
  have part : 0 ≤ ((s.rq iter).rtRuntime - (s.rq iter).rtTime) / weight := Int.ediv_nonneg (by omega) (by omega)
  have whole : ((s.rq iter).rtRuntime - (s.rq iter).rtTime) / weight ≤ (s.rq iter).rtRuntime - (s.rq iter).rtTime :=
    Int.ediv_le_self _ (by omega)
  have finite : (2 : Int) ^ 63 < runtimeInf := by decide
  dsimp only [borrowedTime]
  rw [conserved.s64_spare lender]
  split_ifs with clipped <;> omega

/-- What a loop that borrows keeps. -/
structure Borrowed (l : List (Fin n)) (own : Fin n) (s t : Bandwidth n) : Prop where
  conserved : Conserved t
  moved : Moved s t
  total : ∀ P : Nat → Bool, (∀ i ∈ l, P (s.rq i).rd = P (s.rq own).rd) → held (granted P) t.rq = held (granted P) s.rq

theorem Borrowed.refl (conserved : Conserved s) : Borrowed l own s s := ⟨conserved, .refl s, fun _ _ => rfl⟩

theorem borrowed_balanceLoop (weight : Nat) (l : List (Fin n)) (conserved : Conserved s) (borrower : (s.rq own).Lends) :
    Borrowed l own s (balanceLoop weight own l s) := by
  induction l generalizing s with
  | nil => exact .refl conserved
  | cons iter rest ih =>
    have passed : Borrowed (iter :: rest) own s (balanceLoop weight own rest s) := by
      obtain ⟨kept, moved, total⟩ := ih conserved borrower
      exact ⟨kept, moved, fun P alike => total P fun i member => alike i (List.mem_cons_of_mem _ member)⟩
    rw [balanceLoop]
    dsimp only
    by_cases skip : iter = own ∨ (s.rq iter).rtRuntime = runtimeInf
    · rwa [if_pos skip]
    obtain ⟨apart, lender⟩ := not_or.mp skip
    rw [if_neg skip]
    by_cases spare : s64 ((s.rq iter).rtRuntime - (s.rq iter).rtTime) > 0
    · have range := borrowedTime_range weight conserved lender borrower apart spare
      obtain ⟨kept, moved, total⟩ := conserved.lend lender borrower apart range.1 range.2
      rw [if_pos spare]
      split_ifs
      · exact ⟨kept, moved, fun P alike => total P (alike iter List.mem_cons_self)⟩
      · obtain ⟨kept', moved', total'⟩ := ih kept ((moved.lends own).mpr borrower)
        refine ⟨kept', moved.trans moved', fun P alike => ?_⟩
        rw [total' P fun i member => ?_, total P (alike iter List.mem_cons_self)]
        rw [moved.rd, moved.rd]
        exact alike i (List.mem_cons_of_mem _ member)
    · rwa [if_neg spare]

/-- Nobody lends when there is no limit. -/
theorem balanceLoop_unlimited (none' : ∀ i, (s.rq i).rtRuntime = runtimeInf) : balanceLoop weight own l s = s := by
  induction l with
  | nil => rfl
  | cons iter rest ih => rw [balanceLoop, if_pos (.inr (none' iter)), ih]

theorem borrowed_doBalanceRuntime (conserved : Conserved s) (self : Fin n)
    (limit : (s.rq own).rtRuntime = runtimeInf → s.given = runtimeInf) :
    Borrowed (s.span (s.rq self).rd) own s (doBalanceRuntime self own s) := by
  by_cases borrower : (s.rq own).Lends
  · exact borrowed_balanceLoop _ _ conserved borrower
  · rw [doBalanceRuntime, balanceLoop_unlimited (conserved.unlimited (limit (not_not.mp borrower)))]
    exact .refl conserved

/-- A CPU that has exceeded its run time has a limit, as clocks are below `2 ^ 63`. -/
theorem Conserved.lends_of_exceeded (conserved : Conserved s) (exceeded : (s.rq own).rtTime > (s.rq own).rtRuntime) :
    (s.rq own).Lends := by
  have time := (conserved.time own).2
  have finite : (2 : Int) ^ 63 < runtimeInf := by decide
  rw [RtRq.Lends]
  omega

theorem borrowed_balanceRuntime (conserved : Conserved s) :
    Borrowed (s.span (s.rq self).rd) own s (balanceRuntime self own s) := by
  rw [balanceRuntime]
  split_ifs with exceeded
  · exact borrowed_doBalanceRuntime conserved self fun none' => absurd none' (conserved.lends_of_exceeded exceeded)
  · exact .refl conserved

/-! ## Writing to one run queue -/

/-- A step that keeps the invariant, and what root domains have together. -/
structure Keeps (s t : Bandwidth n) : Prop where
  conserved : Conserved t
  even : ∀ P : Nat → Bool, Even P s → Even P t

theorem Keeps.refl (conserved : Conserved s) : Keeps s s := ⟨conserved, fun _ => id⟩

theorem granted_eq_share {rq : RtRq} {runtime : Int} (settled : rq.rtRuntime = runtimeInf ∨ rq.rtRuntime = runtime) :
    granted P rq = share P runtime rq := by
  rw [granted, share]
  split_ifs with lends
  · exact settled.resolve_left lends.2
  · rfl

theorem even_set {rq : RtRq} (even : Even P s)
    (same : granted P rq - granted P (s.rq i) = share P s.given rq - share P s.given (s.rq i)) :
    Even P (s.set i rq) := by
  have grants := held_update (granted P) s.rq i rq
  have shares := held_update (share P s.given) s.rq i rq
  rw [Even] at even ⊢
  rw [set_given, Bandwidth.set]
  linarith

theorem Conserved.touch (conserved : Conserved s) {rq : RtRq} (runtime : rq.rtRuntime = (s.rq i).rtRuntime)
    (rd : rq.rd = (s.rq i).rd) (time : 0 ≤ rq.rtTime ∧ rq.rtTime < 2 ^ 63)
    (throttled : rq.rtThrottled → 0 < rq.rtTime) : Keeps s (s.set i rq) := by
  have even (P : Nat → Bool) (even : Even P s) : Even P (s.set i rq) := by
    refine even_set even ?_
    have lends : P rq.rd ∧ rq.Lends ↔ P (s.rq i).rd ∧ (s.rq i).Lends := by rw [RtRq.Lends, RtRq.Lends, runtime, rd]
    have grants : granted P rq = granted P (s.rq i) := if_congr lends runtime rfl
    have shares : share P s.given rq = share P s.given (s.rq i) := if_congr lends rfl rfl
    rw [grants, shares, Int.sub_self, Int.sub_self]
  refine ⟨⟨conserved.toSane.set ?_ time throttled fun none' => ?_, even _ conserved.total⟩, even⟩
  · rw [runtime]
    exact conserved.runtime i
  · rw [runtime]
    exact conserved.unlimited none' i

/-- A run queue that has neither lent nor borrowed may start or stop to take part, or change
its root domain. -/
theorem Conserved.settle (conserved : Conserved s) (settled : Settled s i) {rq : RtRq}
    (runtime : rq.rtRuntime = runtimeInf ∨ rq.rtRuntime = s.given)
    (time : 0 ≤ rq.rtTime ∧ rq.rtTime < 2 ^ 63) (throttled : rq.rtThrottled → 0 < rq.rtTime) :
    Keeps s (s.set i rq) := by
  have even (P : Nat → Bool) (even : Even P s) : Even P (s.set i rq) := by
    refine even_set even ?_
    rw [granted_eq_share runtime, granted_eq_share settled]
  refine ⟨⟨conserved.toSane.set ?_ time throttled fun none' => ?_, even _ conserved.total⟩, even⟩
  · rcases runtime with infinite | same
    · rw [infinite]
      decide
    · rw [same]
      exact conserved.fitsGiven.range i
  · rwa [none', or_self] at runtime

theorem Conserved.charge (conserved : Conserved s) (nonneg : 0 ≤ deltaExec)
    (clock : (s.rq i).rtTime + deltaExec < 2 ^ 63) : Keeps s (chargeTime i deltaExec s) := by
  have time := (conserved.time i).1
  refine conserved.touch rfl rfl ⟨by dsimp only; omega, clock⟩ fun throttled => ?_
  have positive := conserved.throttled i throttled
  dsimp only
  omega

theorem Conserved.throttle (conserved : Conserved s) (i : Fin n) : Keeps s (throttle i s).1 := by
  rw [Sched.throttle]
  split_ifs with infinite beyond
  · exact .refl conserved
  · have nonneg := (conserved.runtime i).1
    exact conserved.touch rfl rfl (conserved.time i) fun _ => by dsimp only; omega
  · exact .refl conserved

theorem Conserved.enableRuntime (conserved : Conserved s) (whole : s.handler ≠ .constrained) (settled : Settled s i) :
    Keeps s (enableRuntime i s) := by
  rw [Sched.enableRuntime]
  split_ifs
  · exact .refl conserved
  · exact conserved.settle settled (.inr (if_neg whole).symm) (show (0 : Int) ≤ 0 ∧ (0 : Int) < 2 ^ 63 by decide) nofun

/-! ## Taking back -/

/-- What the loop has done when `left` of what was wanted is missing. -/
structure Reclaimed (own : Fin n) (l : List (Fin n)) (want left : Int) (s t : Bandwidth n) : Prop where
  moved : Moved s t
  untouched : (t.rq own).rtRuntime = (s.rq own).rtRuntime
  runtime : ∀ i, 0 ≤ (t.rq i).rtRuntime ∧ (t.rq i).rtRuntime ≤ runtimeInf
  total : ∀ (P : Nat → Bool) (inside : Bool), (∀ i ∈ l, P (s.rq i).rd = inside) →
    held (granted P) t.rq = held (granted P) s.rq - if inside then want - left else 0
  less : 0 < want → ∀ i, (t.rq i).rtRuntime ≤ (s.rq i).rtRuntime
  -- All that was wanted is there unless nobody has anything.
  missing : left ≠ 0 → (0 < want → 0 < left) ∧
    ∀ i ∈ l, i ≠ own → (s.rq i).Lends → 0 < want ∧ (t.rq i).rtRuntime = 0

namespace Reclaimed

theorem none (runtime : ∀ i, 0 ≤ (s.rq i).rtRuntime ∧ (s.rq i).rtRuntime ≤ runtimeInf)
    (nobody : ∀ i ∈ l, i ≠ own → ¬ (s.rq i).Lends) : Reclaimed own l want want s s where
  moved := .refl s
  untouched := rfl
  runtime := runtime
  total _ inside _ := by split_ifs <;> omega
  less _ _ := Int.le_refl _
  missing _ := ⟨id, fun i member apart lends => absurd lends (nobody i member apart)⟩

theorem one (runtime : ∀ i, 0 ≤ (s.rq i).rtRuntime ∧ (s.rq i).rtRuntime ≤ runtimeInf)
    (lender : (s.rq iter).Lends) (small : (s.rq iter).rtRuntime < 2 ^ 63) (apart : iter ≠ own)
    (room : want < 0 → (s.rq iter).rtRuntime - want < runtimeInf) :
    Reclaimed own [iter] want (want - reclaimed want (s.rq iter)) s
      (s.addRuntime iter (-reclaimed want (s.rq iter))) := by
  have range := runtime iter
  have signed : s64 (s.rq iter).rtRuntime = (s.rq iter).rtRuntime := s64_eq (by omega) small
  have less : reclaimed want (s.rq iter) ≤ (s.rq iter).rtRuntime ∧
      (s.rq iter).rtRuntime - reclaimed want (s.rq iter) < runtimeInf := by
    have finite : (2 : Int) ^ 63 < runtimeInf := by decide
    rw [reclaimed, signed]
    split_ifs with positive
    · omega
    · rcases eq_or_ne want 0 with zero | negative
      · omega
      · exact ⟨by omega, room (by omega)⟩
  have stays : (s.rq iter).rtRuntime + -reclaimed want (s.rq iter) ≠ runtimeInf := by omega
  refine ⟨moved_addRuntime lender stays, ?_, fun i => ?_, fun P inside alike => ?_, fun positive i => ?_, fun left => ?_⟩
  · rw [addRuntime_of_ne _ _ apart.symm]
  · by_cases here : i = iter
    · subst here
      rw [addRuntime_self]
      omega
    · rw [addRuntime_of_ne _ _ here]
      exact runtime i
  · rw [held_addRuntime P lender stays, alike iter List.mem_cons_self]
    split_ifs <;> omega
  · by_cases here : i = iter
    · subst here
      rw [addRuntime_self, reclaimed, if_pos positive]
      omega
    · rw [addRuntime_of_ne _ _ here]
  · rw [reclaimed, signed] at left ⊢
    split_ifs at left ⊢ with positive
    · refine ⟨fun _ => by omega, fun i member _ _ => ⟨positive, ?_⟩⟩
      rw [List.mem_singleton.mp member, addRuntime_self]
      omega
    · exact absurd (Int.sub_self want) left

theorem cons {u : Bandwidth n} {middle left : Int} (first : Reclaimed own [iter] want middle s t)
    (lender : (s.rq iter).Lends) (apart : iter ≠ own) (more : middle ≠ 0) (rest : Reclaimed own l middle left t u) :
    Reclaimed own (iter :: l) want left s u := by
  obtain ⟨positive, taken⟩ := (first.missing more).2 iter List.mem_cons_self apart lender
  have still : 0 < middle := (first.missing more).1 positive
  refine ⟨first.moved.trans rest.moved, rest.untouched.trans first.untouched, rest.runtime,
    fun P inside alike => ?_, fun _ i => ?_, fun left => ?_⟩
  · rw [rest.total P inside fun i member => ?_, first.total P inside fun i member => ?_]
    · split_ifs <;> omega
    · exact alike i (List.mem_cons.mpr (.inl (List.mem_singleton.mp member)))
    · rw [first.moved.rd]
      exact alike i (List.mem_cons_of_mem _ member)
  · exact (rest.less still i).trans (first.less positive i)
  · refine ⟨fun _ => (rest.missing left).1 still, fun i member other lends => ⟨positive, ?_⟩⟩
    rcases List.mem_cons.mp member with rfl | member
    · have shrunk := rest.less still i
      have range := (rest.runtime i).1
      omega
    · exact ((rest.missing left).2 i member other ((first.moved.lends i).mpr lends)).2

theorem skip {left : Int} (passed : iter = own ∨ (s.rq iter).rtRuntime = runtimeInf)
    (rest : Reclaimed own l want left s t) : Reclaimed own (iter :: l) want left s t := by
  refine { rest with
    total := fun P inside alike => rest.total P inside fun i member => alike i (List.mem_cons_of_mem _ member)
    missing := fun left => ⟨(rest.missing left).1, fun i member other lends => ?_⟩ }
  rcases List.mem_cons.mp member with rfl | member
  · exact absurd (passed.resolve_left other) lends
  · exact (rest.missing left).2 i member other lends

theorem stop (first : Reclaimed own [iter] want 0 s t) : Reclaimed own (iter :: l) want 0 s t :=
  { first with
    total := fun P inside alike => first.total P inside fun i member =>
      alike i (List.mem_cons.mpr (.inl (List.mem_singleton.mp member)))
    missing := fun left => absurd rfl left }

end Reclaimed

theorem reclaimLoop_spec (own : Fin n) (l : List (Fin n)) (want : Int)
    (runtime : ∀ i, 0 ≤ (s.rq i).rtRuntime ∧ (s.rq i).rtRuntime ≤ runtimeInf)
    (small : ∀ i, (s.rq i).Lends → (s.rq i).rtRuntime < 2 ^ 63)
    (room : want < 0 → ∀ i, i ≠ own → (s.rq i).Lends → (s.rq i).rtRuntime - want < runtimeInf) :
    Reclaimed own l want (reclaimLoop own l want s).2 s (reclaimLoop own l want s).1 := by
  induction l generalizing s want with
  | nil => exact .none runtime nofun
  | cons iter rest ih =>
    rw [reclaimLoop]
    dsimp only
    split_ifs with passed done
    · exact (ih want runtime small room).skip passed
    · obtain ⟨apart, lender⟩ := not_or.mp passed
      have first := Reclaimed.one runtime lender (small iter lender) apart fun negative =>
        room negative iter apart lender
      rw [done] at first ⊢
      exact first.stop
    · obtain ⟨apart, lender⟩ := not_or.mp passed
      have first := Reclaimed.one runtime lender (small iter lender) apart fun negative =>
        room negative iter apart lender
      have wanted := ((first.missing done).2 iter List.mem_cons_self apart lender).1
      have positive := (first.missing done).1 wanted
      refine first.cons lender apart done (ih _ first.runtime (fun i lends => ?_) fun negative => by omega)
      exact lt_of_le_of_lt (first.less wanted i) (small i ((first.moved.lends i).mp lends))

/-- What a CPU has borrowed fits into any other run time. -/
theorem Conserved.room (conserved : Conserved s) (lends : (s.rq i).Lends) (lender : (s.rq own).Lends)
    (apart : i ≠ own) : (s.rq i).rtRuntime - (s.given - (s.rq own).rtRuntime) < runtimeInf := by
  have both := conserved.add_lt lends lender apart
  have nonneg := (conserved.fitsGiven.resolve_left (conserved.limited lender)).1
  have finite : (2 : Int) ^ 63 < runtimeInf := by decide
  omega

theorem Conserved.reclaimed (conserved : Conserved s) (lender : (s.rq own).Lends) (l : List (Fin n)) :
    Reclaimed own l (s.given - (s.rq own).rtRuntime) (reclaimLoop own l (s.given - (s.rq own).rtRuntime) s).2 s
      (reclaimLoop own l (s.given - (s.rq own).rtRuntime) s).1 :=
  reclaimLoop_spec own l _ conserved.runtime (fun _ => conserved.runtime_lt) fun _ _ apart lends =>
    conserved.room lends lender apart

/-- A CPU gets back what it has lent, or gives back what it has borrowed, if that has stayed
in its root domain. -/
theorem reclaimLoop_left (conserved : Conserved s) (lender : (s.rq own).Lends)
    (even : Even (fun rd => rd = (s.rq own).rd) s) :
    (reclaimLoop own (s.span (s.rq own).rd) (s.given - (s.rq own).rtRuntime) s).2 = 0 := by
  have limited := conserved.limited lender
  have range := conserved.share_range (fun rd => rd = (s.rq own).rd) limited
  have spec := conserved.reclaimed lender (s.span (s.rq own).rd)
  generalize reclaimLoop own (s.span (s.rq own).rd) (s.given - (s.rq own).rtRuntime) s = result at spec ⊢
  by_contra left
  obtain ⟨sign, nobody⟩ := spec.missing left
  have here : decide ((s.rq own).rd = (s.rq own).rd) := decide_eq_true rfl
  have nothing (i : Fin n) (apart : i ≠ own) : granted (fun rd => rd = (s.rq own).rd) (result.1.rq i) = 0 := by
    by_cases lends : (s.rq i).rd = (s.rq own).rd ∧ (s.rq i).Lends
    · have empty := (nobody i (mem_span.mpr lends.1) apart lends.2).2
      rw [granted, empty, ite_self]
    · refine if_neg fun both => lends ⟨?_, (spec.moved.lends i).mp both.2⟩
      rw [← spec.moved.rd i]
      exact of_decide_eq_true both.1
  have total := spec.total (fun rd => rd = (s.rq own).rd) true fun i member => decide_eq_true (mem_span.mp member)
  rw [held_eq_single nothing, granted_of (by rwa [spec.moved.rd]) ((spec.moved.lends own).mpr lender), spec.untouched,
    if_pos rfl] at total
  rw [Even] at even
  by_cases positive : 0 < s.given - (s.rq own).rtRuntime
  · have least : _ ≤ held (share (fun rd => rd = (s.rq own).rd) s.given) s.rq := le_held (fun i => (range i).1) own
    rw [share_of here lender] at least
    have missing := sign positive
    omega
  · have alone (i : Fin n) (apart : i ≠ own) : share (fun rd => rd = (s.rq own).rd) s.given (s.rq i) = 0 := by
      refine if_neg fun both => positive ?_
      exact (nobody i (mem_span.mpr (of_decide_eq_true both.1)) apart both.2).1
    rw [held_eq_single alone, share_of here lender] at even
    omega

theorem Conserved.retire (conserved : Conserved s) (lender : (s.rq own).Lends)
    (reclaimed : Reclaimed own l (s.given - (s.rq own).rtRuntime) 0 s t)
    (alike : ∀ i ∈ l, (s.rq i).rd = (s.rq own).rd) :
    Keeps s (t.set own { t.rq own with rtRuntime := runtimeInf }) := by
  have moved := reclaimed.moved
  have still : (t.rq own).Lends := (moved.lends own).mpr lender
  have even (P : Nat → Bool) (even : Even P s) : Even P (t.set own { t.rq own with rtRuntime := runtimeInf }) := by
    have grants := held_update (granted P) t.rq own { t.rq own with rtRuntime := runtimeInf }
    have shares := held_update (share P s.given) t.rq own { t.rq own with rtRuntime := runtimeInf }
    have none' : granted P { t.rq own with rtRuntime := runtimeInf } = 0 := if_neg fun both => both.2 rfl
    have none'' : share P s.given { t.rq own with rtRuntime := runtimeInf } = 0 := if_neg fun both => both.2 rfl
    have total := reclaimed.total P (P (s.rq own).rd) fun i member => congrArg P (alike i member)
    rw [Even] at even ⊢
    rw [none'] at grants
    rw [none'', moved.share_eq] at shares
    rw [set_given, moved.given, Bandwidth.set]
    dsimp only
    by_cases inside : P (s.rq own).rd
    · have inside' : P (t.rq own).rd := by rwa [moved.rd]
      rw [granted_of inside' still, reclaimed.untouched] at grants
      rw [share_of inside' still] at shares
      rw [if_pos inside] at total
      linarith
    · have outside : ¬ P (t.rq own).rd := by rwa [moved.rd]
      have nothing : granted P (t.rq own) = 0 := if_neg fun both => outside both.1
      have nothing' : share P s.given (t.rq own) = 0 := if_neg fun both => outside both.1
      rw [nothing] at grants
      rw [nothing'] at shares
      rw [if_neg inside] at total
      linarith
  refine ⟨⟨?_, even _ conserved.total⟩, even⟩
  have kept : Sane t := conserved.toSane.moved moved reclaimed.runtime
  exact kept.set ⟨show (0 : Int) ≤ runtimeInf by decide, Int.le_refl _⟩ (kept.time own) (kept.throttled own) fun _ => rfl

theorem Conserved.s64_want (conserved : Conserved s) (lender : (s.rq own).Lends) :
    s64 (s.given - (s.rq own).rtRuntime) = s.given - (s.rq own).rtRuntime := by
  have small := conserved.runtime_lt lender
  have range := conserved.runtime own
  obtain ⟨nonneg, total⟩ := conserved.fitsGiven.resolve_left (conserved.limited lender)
  have some' : (1 : Int) ≤ n := by have inside := own.isLt; omega
  have one := Int.mul_le_mul_of_nonneg_right some' nonneg
  exact s64_eq (by omega) (by omega)

theorem Conserved.disableRuntime (conserved : Conserved s) (whole : s.handler ≠ .constrained)
    (performed : disableRuntime i s = some t) : Keeps s t := by
  have given : s.given = s.rtB.rtRuntime := if_neg whole
  rw [Sched.disableRuntime, ← given] at performed
  dsimp only at performed
  split_ifs at performed with stopped balanced left <;> cases performed
  · exact .refl conserved
  · rcases eq_or_ne (s.rq i).rtRuntime runtimeInf with infinite | lender
    · exact conserved.touch infinite.symm rfl (conserved.time i) (conserved.throttled i)
    · refine conserved.retire (l := []) lender ?_ nofun
      rw [balanced.resolve_left lender, Int.sub_self]
      exact .none conserved.runtime nofun
  · have lender : (s.rq i).Lends := (not_or.mp balanced).1
    have spec := conserved.reclaimed lender (s.span (s.rq i).rd)
    rw [conserved.s64_want lender] at left ⊢
    rw [not_not.mp left] at spec
    exact conserved.retire lender spec fun j => mem_span.mp

/-- `BUG_ON(want)` is not hit. -/
theorem disableRuntime_isSome (conserved : Conserved s) (whole : s.handler ≠ .constrained)
    (even : Even (fun rd => rd = (s.rq i).rd) s) : (disableRuntime i s).isSome := by
  have given : s.given = s.rtB.rtRuntime := if_neg whole
  rw [Sched.disableRuntime, ← given]
  dsimp only
  split_ifs with stopped balanced left
  · rfl
  · rfl
  · have lender : (s.rq i).Lends := (not_or.mp balanced).1
    rw [conserved.s64_want lender] at left
    exact absurd (reclaimLoop_left conserved lender even) left
  · rfl

/-! ## `sched_rt_handler` -/

theorem Conserved.schedRtHandler (conserved : Conserved s) : Keeps s (schedRtHandler s) := by
  have fits := fitsRuntime_sysctl conserved.few s.sysctlSchedRtRuntime
  rw [Sched.schedRtHandler]
  split
  case h_1 => exact .refl conserved
  case h_2 oldPeriod oldRuntime written =>
    rw [schedRtGlobalConstraints]
    split_ifs
    · have given : s.given = s.rtB.rtRuntime := if_neg (by rw [written]; nofun)
      have even (P : Nat → Bool) (even : Even P s) : held (granted P) s.rq = held (share P s.rtB.rtRuntime) s.rq := by
        rwa [Even, given] at even
      refine ⟨⟨{ conserved with unlimited := fun none' => ?_ }, even _ conserved.total⟩, even⟩
      exact conserved.unlimited (given.trans none')
    · exact ⟨⟨⟨conserved.few, conserved.fits, fun i => fits.range i, conserved.time, conserved.throttled,
        fun none' _ => none'⟩, held_congr fun _ => granted_eq_share (.inr rfl)⟩,
        fun P _ => held_congr fun _ => granted_eq_share (.inr rfl)⟩
  case h_3 written =>
    have given : s.given = s.globalRtRuntime := if_pos written
    have even (P : Nat → Bool) (even : Even P s) : held (granted P) s.rq = held (share P s.globalRtRuntime) s.rq := by
      rwa [Even, given] at even
    refine ⟨⟨⟨conserved.few, ⟨conserved.fits.period, fits⟩, conserved.runtime, conserved.time, conserved.throttled,
      fun none' => ?_⟩, even _ conserved.total⟩, even⟩
    exact conserved.unlimited (given.trans none')
  case h_4 written =>
    have given : s.given = s.rtB.rtRuntime := if_neg (by rw [written]; nofun)
    have even (P : Nat → Bool) (even : Even P s) : held (granted P) s.rq = held (share P s.rtB.rtRuntime) s.rq := by
      rwa [Even, given] at even
    have small := s.sysctlSchedRtPeriod.isLt
    have period : 0 ≤ s.globalRtPeriod ∧ s.globalRtPeriod < 2 ^ 63 := by
      rw [globalRtPeriod]
      omega
    refine ⟨⟨⟨conserved.few, ⟨period, conserved.fits.runtime⟩, conserved.runtime, conserved.time,
      conserved.throttled, fun none' => ?_⟩, even _ conserved.total⟩, even⟩
    exact conserved.unlimited (given.trans none')

/-- `proc_dointvec`, which does not give anything to a CPU yet. -/
theorem Conserved.proc (conserved : Conserved s) (idle : s.handler = .idle) {oldPeriod oldRuntime : BitVec 32}
    (period runtime : BitVec 32) :
    Keeps s { s with sysctlSchedRtPeriod := period, sysctlSchedRtRuntime := runtime
                     handler := .written oldPeriod oldRuntime } := by
  have given : s.given = s.rtB.rtRuntime := if_neg (by rw [idle]; nofun)
  have even (P : Nat → Bool) (even : Even P s) : held (granted P) s.rq = held (share P s.rtB.rtRuntime) s.rq := by
    rwa [Even, given] at even
  refine ⟨⟨{ conserved with unlimited := fun none' => ?_ }, even _ conserved.total⟩, even⟩
  exact conserved.unlimited (given.trans none')

theorem conserved_initRtRq (few : n ≤ 2 ^ 22) (period runtime : BitVec 32) (rd : Fin n → Nat) :
    Conserved (initRtRq period runtime rd) ∧ ∀ P : Nat → Bool, Even P (initRtRq period runtime rd) := by
  have fits := fitsRuntime_sysctl few runtime
  have small := period.isLt
  have even (P : Nat → Bool) : Even P (initRtRq period runtime rd) := held_congr fun _ => granted_eq_share (.inr rfl)
  refine ⟨⟨⟨few, ⟨?_, fits⟩, fun i => fits.range i, fun _ => ?_, fun _ => nofun, fun none' _ => none'⟩, even _⟩, even⟩
  · rw [initRtRq]
    dsimp only
    omega
  · exact show (0 : Int) ≤ 0 ∧ (0 : Int) < 2 ^ 63 by decide

end Cs544.Sched
