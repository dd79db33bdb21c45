import Mathlib.Data.List.Basic

/-! A scan that keeps the smallest candidate and may stop early.

Of the candidates that are admissible the first of the smallest size is kept. The scan
stops at a candidate it keeps when that one is good enough, which is right only when no
smaller one comes behind it.
-/

set_option autoImplicit false

namespace Cs544.Library

variable {Candidate : Type} (admissible enough : Candidate → Prop) [DecidablePred admissible] [DecidablePred enough]
  (size : Candidate → Nat)

/-- The candidate kept, and whether the scan stopped at it. -/
def select : List Candidate → Option Candidate → Option Candidate × Bool
  | [], best => (best, false)
  | x :: rest, best =>
      if admissible x ∧ best.all (fun y => size x < size y) = true then
        if enough x then (some x, true) else select rest (some x)
      else select rest best

/-- A candidate the scan stops at: good enough, and smaller than all before it. -/
def StopsAt (before : List Candidate) (x : Candidate) : Prop :=
  admissible x ∧ enough x ∧ ∀ y ∈ before, admissible y → size x < size y

variable {admissible enough size} {l m before after : List Candidate} {best : Option Candidate} {x y : Candidate}

theorem all_larger_iff :
    best.all (fun y => size x < size y) = true ↔ ∀ y, best = some y → size x < size y := by
  cases best <;> simp

theorem select_append : select admissible enough size (l ++ m) best =
    if (select admissible enough size l best).2 then select admissible enough size l best
    else select admissible enough size m (select admissible enough size l best).1 := by
  induction l generalizing best with
  | nil => simp [select]
  | cons x rest ih =>
    rw [List.cons_append, select, select]
    by_cases taken : admissible x ∧ best.all (fun y => size x < size y) = true
    · by_cases done : enough x
      · simp only [if_pos taken, if_pos done, if_true]
      · simp only [if_pos taken, if_neg done]
        exact ih
    · simp only [if_neg taken]
      exact ih

/-- What is kept was kept before or is an admissible candidate. -/
theorem select_source (result : (select admissible enough size l best).1 = some x) :
    best = some x ∨ x ∈ l ∧ admissible x := by
  induction l generalizing best with
  | nil => exact .inl result
  | cons y rest ih =>
    rw [select] at result
    split_ifs at result with taken done
    · cases result
      exact .inr ⟨by simp, taken.1⟩
    · rcases ih result with here | ⟨member, fine⟩
      · cases here
        exact .inr ⟨by simp, taken.1⟩
      · exact .inr ⟨by simp [member], fine⟩
    · rcases ih result with earlier | ⟨member, fine⟩
      · exact .inl earlier
      · exact .inr ⟨by simp [member], fine⟩

/-- A scan to the end keeps nothing larger than what it had or any admissible candidate. -/
theorem select_smallest (whole : (select admissible enough size l best).2 = false)
    (offered : best = some y ∨ y ∈ l ∧ admissible y) :
    ∃ x, (select admissible enough size l best).1 = some x ∧ size x ≤ size y := by
  induction l generalizing best y with
  | nil =>
    rcases offered with rfl | ⟨member, _⟩
    · exact ⟨y, rfl, Nat.le_refl _⟩
    · cases member
  | cons z rest ih =>
    rw [select] at whole ⊢
    split_ifs at whole ⊢ with taken done
    · obtain ⟨x, kept, smaller⟩ := ih whole (.inl rfl)
      rcases offered with rfl | ⟨member, fine⟩
      · have less := all_larger_iff.mp taken.2 y rfl
        exact ⟨x, kept, by omega⟩
      · rcases List.mem_cons.mp member with rfl | member
        · exact ⟨x, kept, smaller⟩
        · exact ih whole (.inr ⟨member, fine⟩)
    · rcases offered with earlier | ⟨member, fine⟩
      · exact ih whole (.inl earlier)
      · rcases List.mem_cons.mp member with rfl | member
        · -- An admissible candidate that is passed over is not smaller than the one kept.
          cases best with
          | none => exact absurd ⟨fine, rfl⟩ taken
          | some b =>
            have notLess : ¬ size y < size b := fun less => taken ⟨fine, by simpa using less⟩
            obtain ⟨x, kept, smaller⟩ := ih whole (.inl rfl)
            exact ⟨x, kept, by omega⟩
        · exact ih whole (.inr ⟨member, fine⟩)

theorem select_stopped (stopped : (select admissible enough size l best).2 = true) :
    ∃ before x after, l = before ++ x :: after ∧ (select admissible enough size l best).1 = some x ∧
      StopsAt admissible enough size before x ∧ ∀ y, best = some y → size x < size y := by
  induction l generalizing best with
  | nil => cases stopped
  | cons z rest ih =>
    rw [select] at stopped ⊢
    split_ifs at stopped ⊢ with taken done
    · exact ⟨[], z, rest, rfl, rfl, ⟨taken.1, done, by simp⟩, all_larger_iff.mp taken.2⟩
    · obtain ⟨before, x, after, rfl, kept, ⟨fine, good, larger⟩, less⟩ := ih stopped
      have below := less z rfl
      refine ⟨z :: before, x, after, rfl, kept, ⟨fine, good, ?_⟩, ?_⟩
      · simpa [taken.1, below] using larger
      · rintro y rfl
        have := all_larger_iff.mp taken.2 y rfl
        omega
    · obtain ⟨before, x, after, rfl, kept, ⟨fine, good, larger⟩, less⟩ := ih stopped
      refine ⟨z :: before, x, after, rfl, kept, ⟨fine, good, ?_⟩, less⟩
      refine List.forall_mem_cons.mpr ⟨fun admitted => ?_, larger⟩
      cases best with
      | none => exact absurd ⟨admitted, rfl⟩ taken
      | some b =>
        have below := less b rfl
        have notLess : ¬ size z < size b := fun smaller => taken ⟨admitted, by simpa using smaller⟩
        omega

/-- A scan never gets behind a candidate it stops at. -/
theorem select_stopsAt (stop : StopsAt admissible enough size before x)
    (result : (select admissible enough size (before ++ x :: after) none).1 = some y) : y ∈ before ∨ y = x := by
  rw [select_append] at result
  split_ifs at result with stopped
  · rcases select_source result with none' | ⟨member, _⟩
    · cases none'
    · exact .inl member
  · have smaller : (select admissible enough size before none).1.all (fun y => size x < size y) = true := by
      refine all_larger_iff.mpr fun z kept => ?_
      rcases select_source kept with none' | ⟨member, fine⟩
      · cases none'
      · exact stop.2.2 z member fine
    rw [select, if_pos ⟨stop.1, smaller⟩, if_pos stop.2.1] at result
    exact .inr (Option.some.inj result).symm

theorem select_isSome :
    (select admissible enough size l none).1.isSome = true ↔ ∃ x ∈ l, admissible x := by
  constructor
  · intro kept
    obtain ⟨x, kept⟩ := Option.isSome_iff_exists.mp kept
    rcases select_source kept with none' | found
    · cases none'
    · exact ⟨x, found⟩
  · rintro ⟨x, found⟩
    by_cases stopped : (select admissible enough size l none).2 = true
    · obtain ⟨before, y, after, _, kept, _⟩ := select_stopped stopped
      rw [kept]
      rfl
    · obtain ⟨y, kept, _⟩ := select_smallest (Bool.not_eq_true _ ▸ stopped) (.inr found)
      rw [kept]
      rfl

/-- The scan keeps a smallest admissible candidate exactly when no smaller one comes
behind a candidate it could stop at. -/
theorem select_smallest_iff :
    (∀ x, (select admissible enough size l none).1 = some x → ∀ y ∈ l, admissible y → size x ≤ size y) ↔
    ∀ before x after, l = before ++ x :: after → StopsAt admissible enough size before x →
      ∀ y ∈ after, admissible y → size x ≤ size y := by
  constructor
  · rintro smallest before x after rfl stop y behind fine
    have found : (select admissible enough size (before ++ x :: after) none).1.isSome = true :=
      select_isSome.mpr ⟨x, by simp, stop.1⟩
    obtain ⟨z, kept⟩ := Option.isSome_iff_exists.mp found
    have least := smallest z kept
    rcases select_stopsAt stop kept with earlier | rfl
    · rcases select_source kept with none' | ⟨_, admitted⟩
      · cases none'
      · have larger := stop.2.2 z earlier admitted
        have := least x (by simp) stop.1
        omega
    · exact least y (by simp [behind]) fine
  · intro unharmed x kept y member fine
    by_cases stopped : (select admissible enough size l none).2 = true
    · obtain ⟨before, z, after, rfl, kept', stop, _⟩ := select_stopped stopped
      obtain rfl : z = x := Option.some.inj (kept'.symm.trans kept)
      rcases List.mem_append.mp member with front | rest
      · exact Nat.le_of_lt (stop.2.2 y front fine)
      · rcases List.mem_cons.mp rest with rfl | behind
        · exact Nat.le_refl _
        · exact unharmed before z after rfl stop y behind fine
    · obtain ⟨z, kept', smaller⟩ := select_smallest (Bool.not_eq_true _ ▸ stopped) (.inr ⟨member, fine⟩)
      obtain rfl : z = x := Option.some.inj (kept'.symm.trans kept)
      exact smaller

end Cs544.Library
