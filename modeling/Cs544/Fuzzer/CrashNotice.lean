import Cs544.Fuzzer.Supervisor

/-! When main notices that a worker has died.

A terminated child waits for the handler, which marks the first row that holds its pid.
So by then the pid must be in the table, the row must not be written any more, no row of
a former owner of the pid may stand before it, and the handler must not return before it
has waited for all of them. The code guarantees none of this: a worker may die before it
is registered, a pid that is not in the table ends the handler, and a pid may come back
while the row of its former owner is still there.
-/

set_option autoImplicit false

namespace Cs544.Fuzzer

open Cs544.Library

/-- The process of row `j` has terminated: nobody has its pid, or somebody else has. -/
def State.HasTerminated (s : State) (j : Nat) : Prop :=
  (s.table.ppd j).pid ≠ 0 ∧ (s.table.ppd j).pid ≠ s.mainPid ∧
    ((s.table.ppd j).pid ∉ s.live ∨ s.births (s.table.ppd j).pid ≠ s.owner j)

instance (s : State) (j : Nat) : Decidable (s.HasTerminated j) := inferInstanceAs (Decidable (_ ∧ _))

/-- With no `SIGCHLD` pending and the handler not running, every worker of the table that
has terminated is marked. -/
def CrashesNoticed (s : State) : Prop :=
  s.pending = false → s.handler = none →
    ∀ j < ppdSize, (s.table.ppd j).ptype = .worker → s.HasTerminated j → (s.table.ppd j).died = true

instance (s : State) : Decidable (CrashesNoticed s) := inferInstanceAs (Decidable (_ → _ → _))

/-- The child that is still to be registered when the call returns. -/
def Return.child : Return → Option Nat
  | registerWorker _ p => some p
  | afterWorker _ | scan _ | worker => none

namespace Pc

def reforking : Pc → Option Nat
  | refork i => some i
  | _ => none

/-- The child whose pid main is writing into a row. -/
def writes : Pc → Option Nat
  | replace _ p => some p
  | write _ _ r next => if next.child = none then some r.pid else none
  | _ => none

/-- The child that main is going to register, unless its pid is in the table. -/
def starts : Pc → Option Nat
  | install _ p | registerMain _ p | registerWorker _ p => some p
  | write _ _ _ next | create _ _ next => next.child
  | _ => none

/-- Not about to write a row. -/
def plain : Pc → Bool
  | replace _ _ | write _ _ _ _ => false
  | _ => true

theorem writes_of_plain {pc : Pc} (plain : pc.plain = true) : pc.writes = none := by
  cases pc <;> first | rfl | cases plain

end Pc

namespace Return

@[simp] theorem pc_plain (next : Return) : next.pc.plain = true := by
  cases next with
  | afterWorker id =>
    rw [Return.pc]
    split_ifs <;> rfl
  | _ => rfl

@[simp] theorem pc_starts (next : Return) : next.pc.starts = next.child := by
  cases next with
  | afterWorker id =>
    rw [Return.pc]
    split_ifs <;> rfl
  | _ => rfl

end Return

namespace State

/-- Main is going to give the child a row, or is still writing it. -/
def Registering (s : State) (p : Nat) : Prop :=
  s.pc.writes = some p ∨ s.pc.starts = some p ∧ s.table.getProcDesc p = none

instance (s : State) (p : Nat) : Decidable (s.Registering p) := inferInstanceAs (Decidable (_ ∨ _))

/-- The child has a row or will have one. -/
def Awaited (s : State) (p : Nat) : Prop := s.table.getProcDesc p ≠ none ∨ s.Registering p

instance (s : State) (p : Nat) : Decidable (s.Awaited p) := inferInstanceAs (Decidable (_ ∨ _))

def lookedUp (s : State) : Option Nat :=
  match s.handler with
  | some (.found q) => some q
  | _ => none

theorem lookedUp_eq_some {s : State} {q : Nat} (running : s.handler = some (.found q)) : s.lookedUp = some q := by
  rw [lookedUp, running]

end State

/-- The condition under which no crash is lost. A child terminates only once the handler
is installed; a refork returns no pid that is in a row before the one it replaces; and
when the handler looks a pid up, main is not about to write its row, and if the pid is
not in the table, then another signal is pending or nobody who is left has a row. -/
def Noticed (s : State) : Action → Prop
  | .main fork => ∀ i ∈ s.pc.reforking, ∀ p ∈ fork, ∀ row ∈ s.table.getProcDesc (s.table.ppd i).pid,
      ∀ j < row, (s.table.ppd j).pid ≠ p
  | .handler _ => ∀ q ∈ s.lookedUp, ¬ s.Registering q ∧
      (s.table.getProcDesc q = none → s.pending = true ∨ ∀ z ∈ s.zombies, ¬ s.Awaited z)
  | .exits _ | .terminate _ => s.installed = true
  | .deliver | .child _ | .hangup _ => True

instance (s : State) : (a : Action) → Decidable (Noticed s a)
  | .main _ | .handler _ => inferInstanceAs (Decidable (∀ _ ∈ _, _))
  | .exits _ | .terminate _ => inferInstanceAs (Decidable (_ = _))
  | .deliver | .child _ | .hangup _ => inferInstanceAs (Decidable True)

/-- Something is known of the pid: it is nobody's, main's, a child's that has not been
waited for, or just looked up by the handler. -/
def State.Accounted (s : State) (p : Nat) : Prop :=
  p = 0 ∨ p = s.mainPid ∨ p ∈ s.live ∨ p ∈ s.zombies ∨ s.handler = some (.found p)

/-- Row `j` is marked, if it is that of a worker. -/
def Table.Marked (t : Table) (j : Nat) : Prop := (t.ppd j).ptype = .worker → (t.ppd j).died = true

theorem Table.marked_congr {t t' : Table} {j : Nat} (same : t'.ppd j = t.ppd j) : t'.Marked j = t.Marked j := by
  rw [Marked, Marked, same]

/-- What holds while the fields of a row are assigned. The row of main is written before
the first worker has one; the pid of a worker is in no row before its own. -/
structure Written (t : Table) (mainPid : Nat) (births owner : Nat → Nat) (field : Field) (row : Nat)
    (r : Registration) (next : Return) : Prop where
  claimed : row < t.procDescCnt
  pid : field ≠ .pid → (t.ppd row).pid = r.pid
  own : field ≠ .pid → births r.pid = owner row
  self : next.child ≠ none → r.pid = mainPid
  empty : next.child ≠ none → field = .pid → (t.ppd row).pid = 0
  first : r.pid ≠ mainPid → ∀ j < ppdSize, (t.ppd j).pid = r.pid →
    row ≤ j ∧ (j ≠ row → t.Marked j)

/-- Every worker of the table is accounted for or marked, every terminated child with a
row is announced, and of two rows with one pid the second is marked. -/
structure Watched (s : State) : Prop where
  children : ∀ p, p ∈ s.live ∨ p ∈ s.zombies ∨ s.handler = some (.found p) → p ≠ 0 ∧ p ≠ s.mainPid
  alive : ∀ p c, s.child p = some c → p ∈ s.live
  announced : ∀ p ∈ s.zombies, s.Awaited p → s.pending = true ∨ s.handler ≠ none
  registering : ∀ p, s.Registering p → s.Accounted p
  unused : ∀ j, s.table.procDescCnt ≤ j → (s.table.ppd j).pid = 0
  rows : ∀ j < ppdSize,
    (s.Accounted (s.table.ppd j).pid ∧ s.births (s.table.ppd j).pid = s.owner j) ∨ s.table.Marked j
  first : ∀ i j, i < j → j < ppdSize → (s.table.ppd i).pid = (s.table.ppd j).pid →
    (s.table.ppd j).pid ≠ s.mainPid → (s.table.ppd j).pid ≠ 0 → s.table.Marked j
  replacing : ∀ i p, s.pc = .replace i p → ∀ j < ppdSize, (s.table.ppd j).pid = p →
    s.table.Marked j ∧ ∀ row ∈ s.table.getProcDesc (s.table.ppd i).pid, row ≤ j
  written : ∀ field row r next, s.pc = .write field row r next →
    Written s.table s.mainPid s.births s.owner field row r next

variable {s s' : State} {p : Nat}

theorem watched_initial (mainPid : Nat) (files : Finset String) : Watched (initial mainPid files) where
  children p := by
    rintro (live | zombie | found)
    · simp [initial] at live
    · simp [initial] at zombie
    · cases found
  alive p c present := by cases present
  announced p zombie := by simp [initial] at zombie
  registering p := by
    rintro (writes | ⟨starts, _⟩)
    · cases writes
    · cases starts
  unused _ _ := rfl
  rows j _ := .inr nofun
  first i j _ _ _ _ nonzero := absurd rfl nonzero
  replacing _ _ at' := by cases at'
  written _ _ _ _ at' := by cases at'

theorem Watched.crashesNoticed (w : Watched s) : CrashesNoticed s := by
  intro quiet idle j inside worker ⟨nonzero, other, dead⟩
  rcases w.rows j inside with ⟨zero | main | live | zombie | found, own⟩ | marked
  · exact absurd zero nonzero
  · exact absurd main other
  · rcases dead with dead | reused
    · exact absurd live dead
    · exact absurd own reused
  · have awaited : s.Awaited (s.table.ppd j).pid := by
      refine .inl fun unknown => ?_
      exact Table.getProcDesc_eq_none.mp unknown j inside rfl
    rcases w.announced _ zombie awaited with pending | running
    · rw [quiet] at pending
      cases pending
    · exact absurd idle running
  · rw [idle] at found
    cases found
  · exact marked worker

/-! ## Steps of main -/

namespace Watched

theorem written_of_plain (plain : s.pc.plain = true) (field : Field) (row : Nat) (r : Registration) (next : Return)
    (at' : s.pc = .write field row r next) : Written s.table s.mainPid s.births s.owner field row r next := by
  rw [at'] at plain
  cases plain

theorem replacing_of_plain (plain : s.pc.plain = true) (i p : Nat) (at' : s.pc = .replace i p) :
    ∀ j < ppdSize, (s.table.ppd j).pid = p →
      s.table.Marked j ∧ ∀ row ∈ s.table.getProcDesc (s.table.ppd i).pid, row ≤ j := by
  rw [at'] at plain
  cases plain

/-- A statement of main that starts no process. Nobody gets a row who was not to have
one, so the children that are announced or accounted for stay so. -/
theorem moves (w : Watched s) {table : Table} {pc : Pc} {installed started : Bool} {files : Finset String}
    {owner : Nat → Nat} {created : List (ProcType × Process)} {replaced : List Nat}
    (held : ∀ p ≠ 0, p ≠ s.mainPid → table.getProcDesc p ≠ none → s.Awaited p)
    (registering : ∀ p ≠ 0, p ≠ s.mainPid → State.Registering { s with table, pc } p → s.Registering p)
    (unused : ∀ j, table.procDescCnt ≤ j → (table.ppd j).pid = 0)
    (rows : ∀ j < ppdSize,
      (s.Accounted (table.ppd j).pid ∧ s.births (table.ppd j).pid = owner j) ∨ table.Marked j)
    (first : ∀ i j, i < j → j < ppdSize → (table.ppd i).pid = (table.ppd j).pid →
      (table.ppd j).pid ≠ s.mainPid → (table.ppd j).pid ≠ 0 → table.Marked j)
    (replacing : ∀ i p, pc = .replace i p → ∀ j < ppdSize, (table.ppd j).pid = p →
      table.Marked j ∧ ∀ row ∈ table.getProcDesc (table.ppd i).pid, row ≤ j)
    (written : ∀ field row r next, pc = .write field row r next →
      Written table s.mainPid s.births owner field row r next) :
    Watched { s with table, pc, installed, started, files, owner, created, replaced } where
  children := w.children
  alive := w.alive
  announced p zombie awaited := by
    obtain ⟨nonzero, other⟩ := w.children p (.inr (.inl zombie))
    apply w.announced p zombie
    rcases awaited with known | pending
    · exact held p nonzero other known
    · exact .inr (registering p nonzero other pending)
  registering p pending := by
    by_cases zero : p = 0
    · exact .inl zero
    · by_cases main : p = s.mainPid
      · exact .inr (.inl main)
      · exact w.registering p (registering p zero main pending)
  unused := unused
  rows := rows
  first := first
  replacing := replacing
  written := written

theorem goto (w : Watched s) {pc : Pc} {installed started : Bool} {files : Finset String}
    {created : List (ProcType × Process)} {replaced : List Nat} (plain : pc.plain = true)
    (starts : ∀ p, pc.starts = some p → s.pc.starts = some p) :
    Watched { s with pc, installed, started, files, created, replaced } := by
  refine w.moves ?_ ?_ w.unused w.rows w.first ?_ ?_
  · exact fun p _ _ known => .inl known
  · rintro p _ _ (writes | ⟨start, unknown⟩)
    · rw [Pc.writes_of_plain plain] at writes
      cases writes
    · exact .inr ⟨starts p start, unknown⟩
  · exact replacing_of_plain (s := { s with pc }) plain
  · exact written_of_plain (s := { s with pc }) plain

/-- A fork. No process has the new pid, so a worker whose row holds it is marked. -/
theorem spawn (w : Watched s) (idle : s.handler = none) (r : Registration) (free : s.Free r.pid) {pc : Pc}
    {started : Bool} (child : ∀ p, pc.writes = some p ∨ pc.starts = some p → p = r.pid)
    (replacing : ∀ i p, pc = .replace i p → p = r.pid ∧ ∀ j < ppdSize, (s.table.ppd j).pid = r.pid →
      ∀ row ∈ s.table.getProcDesc (s.table.ppd i).pid, row ≤ j)
    (written : ∀ field row r next, pc ≠ .write field row r next) : Watched { s.spawn r with pc, started } := by
  obtain ⟨nonzero, other, notLive, notZombie⟩ := free
  have accounted {p : Nat} (known : s.Accounted p) :
      State.Accounted { s.spawn r with pc, started } p := by
    rcases known with zero | main | live | zombie | found
    · exact .inl zero
    · exact .inr (.inl main)
    · exact .inr (.inr (.inl (Finset.mem_insert_of_mem live)))
    · exact .inr (.inr (.inr (.inl zombie)))
    · exact .inr (.inr (.inr (.inr found)))
  have new {p : Nat} (pending : State.Registering { s.spawn r with pc, started } p) : p = r.pid :=
    child p (pending.imp_right And.left)
  have marked {j : Nat} (inside : j < ppdSize) (holds : (s.table.ppd j).pid = r.pid) : s.table.Marked j := by
    rcases w.rows j inside with ⟨known, _⟩ | marked
    · rw [holds] at known
      rcases known with zero | main | live | zombie | found
      · exact absurd zero nonzero
      · exact absurd main other
      · exact absurd live notLive
      · exact absurd zombie notZombie
      · rw [idle] at found
        cases found
    · exact marked
  refine ⟨?_, ?_, ?_, ?_, w.unused, ?_, w.first, ?_, ?_⟩
  · rintro p (live | rest)
    · rcases Finset.mem_insert.mp live with rfl | live
      · exact ⟨nonzero, other⟩
      · exact w.children p (.inl live)
    · exact w.children p (.inr rest)
  · intro p c present
    by_cases same : p = r.pid
    · rw [same]
      exact Finset.mem_insert_self ..
    · change Function.update s.child r.pid _ p = some c at present
      rw [Function.update_of_ne same] at present
      exact Finset.mem_insert_of_mem (w.alive p c present)
  · intro p zombie awaited
    rcases awaited with known | pending
    · exact w.announced p zombie (.inl known)
    · exact absurd (new pending ▸ zombie) notZombie
  · intro p pending
    rw [new pending]
    exact .inr (.inr (.inl (Finset.mem_insert_self ..)))
  · intro j inside
    by_cases reused : (s.table.ppd j).pid = r.pid
    · exact .inr (marked inside reused)
    · refine (w.rows j inside).imp_left fun ⟨known, own⟩ => ⟨accounted known, ?_⟩
      exact (Function.update_of_ne reused ..).trans own
  · intro i p at' j inside holds
    obtain ⟨rfl, before⟩ := replacing i p at'
    exact ⟨marked inside holds, before j inside holds⟩
  · exact fun field row r next at' => absurd at' (written field row r next)

/-- A call of `register_new_process`, for main itself or for the child it is about to
register. -/
theorem call (w : Watched s) (r : Registration) (next : Return)
    (pending : ∀ p, next.child = some p → s.pc.starts = some p) (self : next.child ≠ none → r.pid = s.mainPid)
    (started : next.child ≠ none → r.replaceDiedPid = 0)
    (own : r.pid = s.mainPid ∨ s.pc.writes = some r.pid ∨ s.pc.starts = some r.pid ∧ r.replaceDiedPid = 0)
    (replacing : r.pid ≠ s.mainPid → r.replaceDiedPid ≠ 0 → ∀ j < ppdSize, (s.table.ppd j).pid = r.pid →
      s.table.Marked j ∧ ∀ row ∈ s.table.getProcDesc r.replaceDiedPid, row ≤ j) : Watched (s.call r next) := by
  unfold State.call
  split
  next row table claimed =>
    have cases' := Table.claim_eq_some claimed
    obtain ⟨unused, used⟩ := Table.Unused.claim w.unused claimed
    have ppd : table.ppd = s.table.ppd := by
      rcases cases' with ⟨_, _, _, rfl⟩ | ⟨_, _, rfl⟩ <;> rfl
    have marked (j : Nat) : table.Marked j = s.table.Marked j := Table.marked_congr (by rw [ppd])
    have lookup (p : Nat) : table.getProcDesc p = s.table.getProcDesc p :=
      Table.getProcDesc_congr (fun j => by rw [ppd]) p
    -- The rows are as before; new is that the pid is now to be written into one of them.
    refine w.moves ?_ ?_ unused ?_ ?_ nofun ?_
    · intro p _ _ known
      rw [lookup] at known
      exact .inl known
    · rintro p _ other (writes | ⟨starts, unknown⟩)
      · obtain ⟨_, same⟩ := Option.ite_none_right_eq_some.mp writes
        cases same
        rcases own with main | writes | ⟨starts, new⟩
        · exact absurd main other
        · exact .inl writes
        · rcases cases' with ⟨_, unknown, _, _⟩ | ⟨old, _, _⟩
          · exact .inr ⟨starts, unknown⟩
          · exact absurd new old
      · rw [lookup] at unknown
        exact .inr ⟨pending p starts, unknown⟩
    · simpa only [ppd, marked] using w.rows
    · simpa only [ppd, marked] using w.first
    · intro field row' r' next' at'
      cases at'
      refine ⟨used, fun later => absurd rfl later, fun later => absurd rfl later, self, ?_, ?_⟩
      · intro starting _
        rcases cases' with ⟨_, _, rfl, _⟩ | ⟨old, _, _⟩
        · simp only [ppd]
          exact w.unused _ le_rfl
        · exact absurd (started starting) old
      · intro other j inside holds
        simp only [ppd, marked] at holds ⊢
        rcases cases' with ⟨_, unknown, _, _⟩ | ⟨old, found, _⟩
        · exact absurd holds (Table.getProcDesc_eq_none.mp unknown j inside)
        · obtain ⟨dead, before⟩ := replacing other old j inside holds
          exact ⟨before row found, fun _ => dead⟩
  next =>
    split_ifs
    · exact w.goto next.pc_plain fun p start => pending p (by rwa [Return.pc_starts] at start)
    · exact w.goto rfl nofun

theorem write_accounted (w : Watched s) {field : Field} {row : Nat} {r : Registration} {next : Return}
    (at' : s.pc = .write field row r next) : s.Accounted r.pid := by
  by_cases starting : next.child = none
  · exact w.registering r.pid (.inl (by rw [at', Pc.writes, if_pos starting]))
  · exact .inr (.inl ((w.written field row r next at').self starting))

theorem writesPid (w : Watched s) {row : Nat} {r : Registration} {next : Return}
    (at' : s.pc = .write .pid row r next) :
    Watched { s with
      table := s.table.write row r .pid
      owner := Function.update s.owner row (s.births r.pid)
      pc := .write .ptype row r next } := by
  have known := w.write_accounted at'
  obtain ⟨claimed, _, _, self, empty, first⟩ := w.written .pid row r next at'
  have own : Function.update s.owner row (s.births r.pid) row = s.births r.pid := by simp
  have kept {j : Nat} (there : j ≠ row) : (s.table.write row r .pid).ppd j = s.table.ppd j :=
    Table.write_of_ne there .pid
  have marked {j : Nat} (there : j ≠ row) : (s.table.write row r .pid).Marked j = s.table.Marked j :=
    Table.marked_congr (kept there)
  refine w.moves ?_ ?_ (Table.Unused.write w.unused claimed .pid) ?_ ?_ nofun ?_
  · intro p nonzero other held
    obtain ⟨j, inside, holds⟩ : ∃ j < ppdSize, ((s.table.write row r .pid).ppd j).pid = p := by
      by_contra nowhere
      push Not at nowhere
      exact held (Table.getProcDesc_eq_none.mpr nowhere)
    by_cases here : j = row
    · rw [here, Table.write_pid_pid] at holds
      by_cases starting : next.child = none
      · exact .inr (.inl (by rw [at', Pc.writes, if_pos starting, holds]))
      · exact absurd (holds ▸ self starting) other
    · rw [kept here] at holds
      exact .inl fun unknown => Table.getProcDesc_eq_none.mp unknown j inside holds
  · rintro p nonzero other (writes | ⟨starts, unknown⟩)
    · exact .inl (by rw [at']; exact writes)
    · have starting : next.child = some p := starts
      refine .inr ⟨by rw [at']; exact starts, Table.getProcDesc_eq_none.mpr ?_⟩
      intro j inside holds
      by_cases here : j = row
      · rw [here, empty (by rw [starting]; nofun) rfl] at holds
        exact nonzero holds.symm
      · exact Table.getProcDesc_eq_none.mp unknown j inside (by rw [kept here]; exact holds)
  · intro j inside
    by_cases here : j = row
    · left
      rw [here, Table.write_pid_pid]
      exact ⟨known, own.symm⟩
    · rw [kept here, marked here, Function.update_of_ne here]
      exact w.rows j inside
  -- A row in front of the written one does not hold the pid, one behind it is marked.
  · intro i j before inside same other nonzero
    by_cases hereJ : j = row
    · subst hereJ
      rw [Table.write_pid_pid] at same other
      rw [kept before.ne] at same
      exact absurd (first other i (before.trans inside) same).1 (Nat.not_le.mpr before)
    · rw [marked hereJ]
      rw [kept hereJ] at same other nonzero
      by_cases hereI : i = row
      · rw [hereI, Table.write_pid_pid] at same
        exact (first (same ▸ other) j inside same.symm).2 hereJ
      · rw [kept hereI] at same
        exact w.first i j before inside same other nonzero
  · intro field row' r' next' equal
    cases equal
    refine ⟨claimed, fun _ => Table.write_pid_pid, fun _ => own.symm, self,
      fun _ pid => (by cases pid), ?_⟩
    intro other j inside holds
    by_cases here : j = row
    · exact ⟨here.ge, fun there => absurd here there⟩
    · simp only [marked here]
      exact first other j inside (by rw [← kept here]; exact holds)

/-- The other assignments leave the pids as they are. -/
theorem writesLater (w : Watched s) {field : Field} {row : Nat} {r : Registration} {next : Return}
    (at' : s.pc = .write field row r next) (later : field ≠ .pid) (pc : Pc)
    (goes : pc = .create row r next ∨ ∃ field', field' ≠ .pid ∧ pc = .write field' row r next) :
    Watched { s with table := s.table.write row r field, pc } := by
  have known := w.write_accounted at'
  obtain ⟨claimed, pid, own, self, _, first⟩ := w.written field row r next at'
  have pids (j : Nat) : ((s.table.write row r field).ppd j).pid = (s.table.ppd j).pid :=
    Table.write_pid_of_ne later j
  have lookup (p : Nat) : (s.table.write row r field).getProcDesc p = s.table.getProcDesc p :=
    Table.getProcDesc_congr pids p
  have marked {j : Nat} (there : j ≠ row) : (s.table.write row r field).Marked j = s.table.Marked j :=
    Table.marked_congr (Table.write_of_ne there field)
  refine w.moves ?_ ?_ (Table.Unused.write w.unused claimed field) ?_ ?_ ?_ ?_
  · intro p _ _ held
    rw [lookup] at held
    exact .inl held
  · rintro p _ _ (writes | ⟨starts, unknown⟩)
    · left
      rcases goes with rfl | ⟨field', _, rfl⟩
      · cases writes
      · rw [at']
        exact writes
    · rw [lookup] at unknown
      refine .inr ⟨?_, unknown⟩
      rw [at']
      rcases goes with rfl | ⟨field', _, rfl⟩ <;> exact starts
  · intro j inside
    rw [pids]
    by_cases here : j = row
    · left
      rw [here, pid later]
      exact ⟨known, own later⟩
    · rw [marked here]
      exact w.rows j inside
  · intro i j before inside same other nonzero
    rw [pids, pids] at same
    rw [pids] at other nonzero
    by_cases here : j = row
    · subst here
      rw [pid later] at same other
      exact absurd (first other i (before.trans inside) same).1 (Nat.not_le.mpr before)
    · rw [marked here]
      exact w.first i j before inside same other nonzero
  · intro i p equal
    rcases goes with rfl | ⟨field', _, rfl⟩ <;> cases equal
  · intro field' row' r' next' equal
    rcases goes with rfl | ⟨field'', further, rfl⟩
    · cases equal
    cases equal
    refine ⟨claimed, fun _ => (pids row).trans (pid later), fun _ => own later, self,
      fun _ first => absurd first further, ?_⟩
    intro other j inside holds
    obtain ⟨after, dead⟩ := first other j inside ((pids j).symm.trans holds)
    exact ⟨after, fun there => by simpa only [marked there] using dead there⟩

/-- The call returns. Its log changes nothing that is looked at. -/
theorem creates (w : Watched s) {row : Nat} {r : Registration} {next : Return} (at' : s.pc = .create row r next) :
    Watched { s.createFile r with table := s.table.openLog row r, pc := next.pc } := by
  have pids (j : Nat) : ((s.table.openLog row r).ppd j).pid = (s.table.ppd j).pid := (Table.openLog_row j).1
  have lookup (p : Nat) : (s.table.openLog row r).getProcDesc p = s.table.getProcDesc p :=
    Table.getProcDesc_congr pids p
  have marked (j : Nat) : (s.table.openLog row r).Marked j = s.table.Marked j := by
    simp only [Table.Marked, Table.openLog_row]
  refine w.moves ?_ ?_ ?_ ?_ ?_ ?_ ?_
  · intro p _ _ known
    rw [lookup] at known
    exact .inl known
  · rintro p _ _ (writes | ⟨starts, unknown⟩)
    · rw [Pc.writes_of_plain next.pc_plain] at writes
      cases writes
    · rw [Return.pc_starts] at starts
      rw [lookup] at unknown
      exact .inr ⟨by rw [at']; exact starts, unknown⟩
  · intro j beyond
    rw [pids]
    exact w.unused j beyond
  · intro j inside
    rw [pids, marked]
    exact w.rows j inside
  · intro i j before inside same foreign alive
    rw [pids, pids] at same
    rw [pids] at foreign alive
    rw [marked]
    exact w.first i j before inside same foreign alive
  · exact replacing_of_plain (s := { s with table := s.table.openLog row r, pc := next.pc }) next.pc_plain
  · exact written_of_plain (s := { s with table := s.table.openLog row r, pc := next.pc }) next.pc_plain

theorem mainStep (w : Watched s) (idle : s.handler = none) {fork : Option Nat} (noticed : Noticed s (.main fork))
    (effect : MainEffect s fork s') : Watched s' := by
  cases effect with
  | forkFails at' | watchdogFails at' | reforkFails at' => exact w.goto rfl nofun
  | finds at' inside worker present died => exact w.goto rfl nofun
  | passes at' inside other => exact w.goto rfl nofun
  | restarts at' beyond => exact w.goto rfl nofun
  | @forks id p at' free =>
    refine w.spawn idle ⟨p, .worker, id, 0⟩ free ?_ nofun nofun
    rintro q (writes | starts)
    · cases writes
    · exact (Option.some.inj starts).symm
  | installs at' => exact w.goto rfl fun q starts => by rw [at']; exact starts
  | @registersMain id p fork at' =>
    refine w.call _ (.registerWorker id p) ?_ (fun _ => rfl) (fun _ => rfl) (.inl rfl) fun other => absurd rfl other
    exact fun q child => by rw [at']; exact child
  | @registersWorker id p fork at' =>
    refine w.call _ (.afterWorker id) nofun (absurd rfl) (absurd rfl) ?_ fun _ old => absurd rfl old
    exact .inr (.inr ⟨by rw [at']; rfl, rfl⟩)
  | @forksWatchdog p at' free =>
    refine w.spawn idle ⟨p, .wd, workerNum, 0⟩ free ?_ nofun nofun
    rintro q (writes | starts)
    · cases writes
    · cases starts
  | @reforks i p at' free =>
    refine w.spawn idle _ free ?_ ?_ nofun
    · rintro q (writes | starts)
      · exact (Option.some.inj writes).symm
      · cases starts
    · intro i' p' equal
      cases equal
      refine ⟨rfl, fun j _ holds row found => ?_⟩
      by_contra before
      exact noticed i (by rw [at']; rfl) p rfl row found j (Nat.lt_of_not_le before) holds
  | @replaces i p fork at' =>
    refine w.call _ (.scan (i + 1)) nofun (absurd rfl) (absurd rfl) (.inr (.inl (by rw [at']; rfl))) ?_
    exact fun _ _ => w.replacing i p at'
  | replacesSelf at' =>
    exact w.call _ .worker nofun (absurd rfl) (absurd rfl) (.inl rfl) fun other => absurd rfl other
  | @writes field row r next fork at' =>
    cases field with
    | pid => exact w.writesPid at'
    | ptype => exact w.writesLater at' nofun _ (.inr ⟨.id, nofun, rfl⟩)
    | id => exact w.writesLater at' nofun _ (.inr ⟨.died, nofun, rfl⟩)
    | died => exact w.writesLater at' nofun _ (.inl rfl)
  | creates at' => exact w.creates at'

/-! ## The handler and the children -/

theorem reaps (w : Watched s) {q : Nat} (running : s.handler = some .waitpid) (zombie : q ∈ s.zombies) :
    Watched { s with zombies := s.zombies.erase q, handler := some (.found q) } := by
  have accounted {p : Nat} (known : s.Accounted p) :
      State.Accounted { s with zombies := s.zombies.erase q, handler := some (.found q) } p := by
    rcases known with zero | main | live | terminated | found
    · exact .inl zero
    · exact .inr (.inl main)
    · exact .inr (.inr (.inl live))
    · by_cases same : p = q
      · exact .inr (.inr (.inr (.inr (by rw [same]))))
      · exact .inr (.inr (.inr (.inl (Finset.mem_erase.mpr ⟨same, terminated⟩))))
    · rw [running] at found
      cases found
  refine ⟨?_, w.alive, ?_, ?_, w.unused, ?_, w.first, w.replacing, w.written⟩
  · rintro p (live | terminated | found)
    · exact w.children p (.inl live)
    · exact w.children p (.inr (.inl (Finset.mem_of_mem_erase terminated)))
    · cases found
      exact w.children q (.inr (.inl zombie))
  · exact fun _ _ _ => .inr nofun
  · exact fun p pending => accounted (w.registering p pending)
  · exact fun j inside => (w.rows j inside).imp_left fun known => ⟨accounted known.1, known.2⟩

/-- The handler is done with what it looked up, or with nothing; the rest stays accounted. -/
theorem accounted_of_ne {s' : State} {p : Nat} (known : s.Accounted p) (other : s.handler ≠ some (.found p))
    (main : s'.mainPid = s.mainPid) (live : s'.live = s.live) (zombies : s'.zombies = s.zombies) :
    s'.Accounted p := by
  unfold State.Accounted
  rw [main, live, zombies]
  rcases known with known | known | known | known | found
  · exact .inl known
  · exact .inr (.inl known)
  · exact .inr (.inr (.inl known))
  · exact .inr (.inr (.inr (.inl known)))
  · exact absurd found other

theorem handlerEnds (w : Watched s) (announced : ∀ p ∈ s.zombies, s.Awaited p → s.pending = true)
    (rows : ∀ j < ppdSize, s.handler ≠ some (.found (s.table.ppd j).pid))
    (registering : ∀ p, s.Registering p → s.handler ≠ some (.found p)) :
    Watched { s with handler := none } := by
  refine ⟨?_, w.alive, ?_, ?_, w.unused, ?_, w.first, w.replacing, w.written⟩
  · rintro p (live | terminated | found)
    · exact w.children p (.inl live)
    · exact w.children p (.inr (.inl terminated))
    · cases found
  · exact fun p zombie awaited => .inl (announced p zombie awaited)
  · exact fun p pending => accounted_of_ne (s := s) (w.registering p pending) (registering p pending) rfl rfl rfl
  · intro j inside
    exact (w.rows j inside).imp_left fun known =>
      ⟨accounted_of_ne (s := s) known.1 (rows j inside) rfl rfl rfl, known.2⟩

/-- The handler begins, and takes over the announcement. -/
theorem delivers (w : Watched s) (idle : s.handler = none) :
    Watched { s with pending := false, handler := some .waitpid } := by
  have other (p : Nat) : s.handler ≠ some (.found p) := by
    rw [idle]
    nofun
  refine ⟨?_, w.alive, fun _ _ _ => .inr nofun, ?_, w.unused, ?_, w.first, w.replacing, w.written⟩
  · rintro p (live | terminated | found)
    · exact w.children p (.inl live)
    · exact w.children p (.inr (.inl terminated))
    · cases found
  · exact fun p pending => accounted_of_ne (s := s) (w.registering p pending) (other p) rfl rfl rfl
  · intro j inside
    exact (w.rows j inside).imp_left fun known =>
      ⟨accounted_of_ne (s := s) known.1 (other _) rfl rfl rfl, known.2⟩

/-- The first row with the pid that was looked up is marked; the others are already. -/
theorem marks (w : Watched s) {q row : Nat} (running : s.handler = some (.found q))
    (found : s.table.getProcDesc q = some row) (idle : ¬ s.Registering q) :
    Watched { s with table := s.table.markDied row, handler := some .waitpid } := by
  obtain ⟨_, pid⟩ := Table.getProcDesc_eq_some found
  obtain ⟨nonzero, other⟩ := w.children q (.inr (.inr running))
  have pids (j : Nat) : ((s.table.markDied row).ppd j).pid = (s.table.ppd j).pid := Table.markDied_pid row j
  have lookup (p : Nat) : (s.table.markDied row).getProcDesc p = s.table.getProcDesc p :=
    Table.getProcDesc_congr pids p
  have here : (s.table.markDied row).Marked row := fun _ => Table.markDied_died row
  have marked {j : Nat} (dead : s.table.Marked j) : (s.table.markDied row).Marked j := by
    by_cases same : j = row
    · rw [same]
      exact here
    · rwa [Table.marked_congr (Table.markDied_of_ne same)]
  have pending {p : Nat} (registers : State.Registering { s with
      table := s.table.markDied row, handler := some .waitpid } p) : s.Registering p := by
    rcases registers with writes | ⟨starts, unknown⟩
    · exact .inl writes
    · rw [lookup] at unknown
      exact .inr ⟨starts, unknown⟩
  refine ⟨?_, w.alive, fun _ _ _ => .inr nofun, ?_, ?_, ?_, ?_, ?_, ?_⟩
  · rintro p (live | terminated | looked)
    · exact w.children p (.inl live)
    · exact w.children p (.inr (.inl terminated))
    · cases looked
  · intro p registers
    refine accounted_of_ne (s := s) (w.registering p (pending registers)) ?_ rfl rfl rfl
    intro looked
    rw [running, Option.some.injEq, Handler.found.injEq] at looked
    exact idle (looked ▸ pending registers)
  · intro j beyond
    rw [pids]
    exact w.unused j beyond
  · intro j inside
    rw [pids]
    -- Whoever else has the pid stands behind the row that was found.
    by_cases holds : (s.table.ppd j).pid = q
    · right
      rcases (Table.le_of_getProcDesc found holds).eq_or_lt with same | before
      · rw [← same]
        exact here
      · exact marked (w.first row j before inside (pid.trans holds.symm) (holds ▸ other) (holds ▸ nonzero))
    · refine (w.rows j inside).imp
        (fun known => ⟨accounted_of_ne (s := s) known.1 ?_ rfl rfl rfl, known.2⟩) marked
      intro looked
      rw [running, Option.some.injEq, Handler.found.injEq] at looked
      exact holds looked.symm
  · intro i j before inside same foreign alive
    rw [pids, pids] at same
    rw [pids] at foreign alive
    exact marked (w.first i j before inside same foreign alive)
  · intro i p at' j inside holds
    rw [pids] at holds
    obtain ⟨dead, after⟩ := w.replacing i p at' j inside holds
    refine ⟨marked dead, ?_⟩
    rw [lookup, pids]
    exact after
  · intro field row' r next at'
    obtain ⟨claimed, written, own, self, empty, first⟩ := w.written field row' r next at'
    refine ⟨claimed, ?_, own, self, ?_, ?_⟩
    · exact fun later => (pids row').trans (written later)
    · exact fun starting pid => (pids row').trans (empty starting pid)
    · intro foreign j inside holds
      obtain ⟨after, dead⟩ := first foreign j inside ((pids j).symm.trans holds)
      exact ⟨after, fun there => marked (dead there)⟩

/-- The pid that was looked up is nobody's, and main is not about to write it. -/
theorem givesUp (w : Watched s) {q : Nat} (looking : s.handler = some (.found q))
    (unknown : s.table.getProcDesc q = none) (idle : ¬ s.Registering q)
    (announced : s.pending = true ∨ ∀ z ∈ s.zombies, ¬ s.Awaited z) : Watched { s with handler := none } := by
  refine w.handlerEnds ?_ ?_ ?_
  · intro p zombie awaited
    exact announced.resolve_right fun nobody => nobody p zombie awaited
  · intro j inside looked
    rw [looking, Option.some.injEq, Handler.found.injEq] at looked
    exact Table.getProcDesc_eq_none.mp unknown j inside looked.symm
  · intro p pending looked
    rw [looking, Option.some.injEq, Handler.found.injEq] at looked
    exact idle (looked ▸ pending)

/-- With nobody left to wait for, nothing is to be announced. -/
theorem ends (w : Watched s) (waiting : s.handler = some .waitpid) (nobody : s.zombies = ∅) :
    Watched { s with handler := none } := by
  have other (p : Nat) : s.handler ≠ some (.found p) := by
    rw [waiting]
    nofun
  refine w.handlerEnds ?_ (fun j _ => other _) fun p _ => other p
  intro p zombie
  simp [nobody] at zombie

theorem terminated (w : Watched s) (installed : s.installed = true) (live : p ∈ s.live) :
    Watched (s.terminated p) := by
  have accounted {q : Nat} (known : s.Accounted q) : (s.terminated p).Accounted q := by
    rcases known with zero | main | alive | zombie | found
    · exact .inl zero
    · exact .inr (.inl main)
    · by_cases same : q = p
      · exact .inr (.inr (.inr (.inl (by rw [same]; exact Finset.mem_insert_self ..))))
      · exact .inr (.inr (.inl (Finset.mem_erase.mpr ⟨same, alive⟩)))
    · exact .inr (.inr (.inr (.inl (Finset.mem_insert_of_mem zombie))))
    · exact .inr (.inr (.inr (.inr found)))
  refine ⟨?_, ?_, ?_, ?_, w.unused, ?_, w.first, w.replacing, w.written⟩
  · rintro q (alive | zombie | found)
    · exact w.children q (.inl (Finset.mem_of_mem_erase alive))
    · rcases Finset.mem_insert.mp zombie with rfl | zombie
      · exact w.children q (.inl live)
      · exact w.children q (.inr (.inl zombie))
    · exact w.children q (.inr (.inr found))
  · intro q c present
    change Function.update s.child p none q = some c at present
    by_cases same : q = p
    · rw [same, Function.update_self] at present
      cases present
    · rw [Function.update_of_ne same] at present
      exact Finset.mem_erase.mpr ⟨same, w.alive q c present⟩
  · intro q _ _
    left
    change (s.pending || s.installed) = true
    rw [installed, Bool.or_true]
  · exact fun q pending => accounted (w.registering q pending)
  · exact fun j inside => (w.rows j inside).imp_left fun known => ⟨accounted known.1, known.2⟩

/-- What a child does to its own table and to the files is nothing to main. -/
theorem childChanges (w : Watched s) (present : p ∈ s.live) (c : Child) (files : Finset String)
    (created : List (ProcType × Process)) (unregistered : List Process) (replaced : List Nat) :
    Watched { s with child := Function.update s.child p (some c), files, created, unregistered, replaced } := by
  refine ⟨w.children, ?_, w.announced, w.registering, w.unused, w.rows, w.first, w.replacing, w.written⟩
  intro q d child
  by_cases same : q = p
  · rw [same]
    exact present
  · change Function.update s.child p (some c) q = some d at child
    rw [Function.update_of_ne same] at child
    exact w.alive q d child

theorem unregisterStep (w : Watched s) {c : Child} (present : s.child p = some c) :
    Watched (unregisterStep s p c) := by
  unfold Fuzzer.unregisterStep
  split
  · exact w.childChanges (w.alive p c present) _ _ s.created _ s.replaced
  · exact ⟨w.children, w.alive, w.announced, w.registering, w.unused, w.rows, w.first, w.replacing, w.written⟩

theorem preserved (w : Watched s) {a : Action} (noticed : Noticed s a) (edge : Step s a s') : Watched s' := by
  cases step_effect edge with
  | main idle effect => exact w.mainStep idle noticed effect
  | delivers pending idle running => exact w.delivers idle
  | ends waiting nobody => exact w.ends waiting nobody
  | reaps waiting zombie => exact w.reaps waiting zombie
  | @givesUp q reaped looking unknown =>
    obtain ⟨idle, announced⟩ := noticed q (State.lookedUp_eq_some looking)
    exact w.givesUp looking unknown idle (announced unknown)
  | @marks q row reaped looking found =>
    exact w.marks looking found (noticed q (State.lookedUp_eq_some looking)).1
  | exits live running => exact w.terminated noticed live
  | @child p c present new =>
    unfold childStep
    split
    · exact w.childChanges (w.alive p c present) _ _ _ s.unregistered _
    · exact w.childChanges (w.alive p c present) _ s.files s.created s.unregistered s.replaced
  | hangup present registered => exact w.unregisterStep present
  | @terminate p c present registered running =>
    apply (w.unregisterStep present).terminated
    · unfold Fuzzer.unregisterStep
      split <;> exact noticed
    · unfold Fuzzer.unregisterStep
      split <;> exact w.alive p c present

end Watched

/-! ## Whole runs -/

def NoticedStep (s : State) (a : Action) (s' : State) : Prop := Noticed s a ∧ Step s a s'

/-- In every run whose steps all meet the condition, no crash is lost in any state. -/
theorem supervisor_notices_crashes (mainPid : Nat) (files : Finset String) (actions : List Action) (s : State)
    (run : Run NoticedStep (initial mainPid files) actions s) : CrashesNoticed s := by
  have watched : Watched s :=
    run.invariant Watched (fun w edge => w.preserved edge.1 edge.2) (watched_initial mainPid files)
  exact watched.crashesNoticed

/-- A worker is registered, crashes and is marked. -/
def noticedCrash : List Action := startWorker 0 100 ++ crash 100

theorem supervisor_notices_first_worker :
    ∃ s, Run NoticedStep (initial 1 ∅) noticedCrash s ∧
      (s.HasTerminated 1 ∧ (s.table.ppd 1).pid = 100 ∧ (s.table.ppd 1).died = true) ∧ CrashesNoticed s := by
  have marked : (execute (fun s a => if Noticed s a then step s a else none) (initial 1 ∅) noticedCrash).map
      (fun s => decide (s.HasTerminated 1 ∧ (s.table.ppd 1).pid = 100 ∧ (s.table.ppd 1).died = true)) =
      some true := by
    decide +kernel
  obtain ⟨s, result, died⟩ := Option.map_eq_some_iff.mp marked
  have run : Run NoticedStep (initial 1 ∅) noticedCrash s :=
    (run_of_execute result).mono fun edge => Option.ite_none_right_eq_some.mp edge
  exact ⟨s, run, of_decide_eq_true died, supervisor_notices_crashes 1 ∅ noticedCrash s run⟩

/-- The first worker crashes while main is about to register it. The handler does not find
it, and nobody waits for it again. -/
def lostCrash : List Action :=
  [.main (some 100), .main none, .exits 100, .deliver, .handler (some 100), .handler none] ++
    List.replicate 12 (.main none)

theorem supervisor_loses_crash : ∃ s, Run Step (initial 1 ∅) lostCrash s ∧ ¬ CrashesNoticed s := by
  have lost : (execute step (initial 1 ∅) lostCrash).map (fun s => decide (¬ CrashesNoticed s)) = some true := by
    decide +kernel
  obtain ⟨s, result, unnoticed⟩ := Option.map_eq_some_iff.mp lost
  exact ⟨s, run_of_execute result, of_decide_eq_true unnoticed⟩

end Cs544.Fuzzer
