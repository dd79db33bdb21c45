import Cs544.Fuzzer.WorkerIdentity

/-! The capacity of the process table.

Every process registers itself in its own copy of the table, behind the rows it has
inherited or in the row of the process it replaces. Main never has more rows than itself and
its workers take; the watchdog adds the last one. A row has a log from the end of its
registration on, and no process is forked before that.
-/

set_option autoImplicit false

namespace Cs544.Fuzzer

open Cs544.Library

/-- Main calls `fork` next. -/
def Pc.forking : Pc → Bool
  | fork _ | forkWatchdog | refork _ => true
  | _ => false

/-- No call of `fork` fails. -/
def ForkSucceeds (s : State) (a : Action) : Prop := a = .main none → s.pc.forking = false

instance (s : State) : (a : Action) → Decidable (ForkSucceeds s a)
  | .main none => decidable_of_iff (s.pc.forking = false) ⟨fun forked _ => forked, fun forked => forked rfl⟩
  | .main (some _) | .deliver | .handler _ | .exits _ | .child _ | .hangup _ | .terminate _ => isTrue nofun

def ForkStep (s : State) (a : Action) (s' : State) : Prop := ForkSucceeds s a ∧ Step s a s'

/-- A process is about to call `register_new_process` on its table. -/
inductive Calling (s : State) : Table → Registration → Prop where
  | main {id p : Nat} (at' : s.pc = .registerMain id p) : Calling s s.table ⟨s.mainPid, .main, id, 0⟩
  | worker {id p : Nat} (at' : s.pc = .registerWorker id p) : Calling s s.table ⟨p, .worker, id, 0⟩
  | replace {i p : Nat} (at' : s.pc = .replace i p) :
      Calling s s.table ⟨p, .worker, (s.table.ppd i).id, (s.table.ppd i).pid⟩
  | replaceSelf {i : Nat} (at' : s.pc = .replaceSelf i) :
      Calling s s.table ⟨s.mainPid, .worker, (s.table.ppd i).id, (s.table.ppd i).pid⟩
  | child {p : Nat} {c : Child} (present : s.child p = some c) (new : c.running = false) :
      Calling s c.table c.registration

/-- No process writes behind its table or through a null pointer, and a child that has
registered itself finds a row for its pid, in use, and the log of that row. -/
structure TablesSuffice (s : State) : Prop where
  inside : ∀ t r row t', Calling s t r → t.claim r = some (row, t') → row < ppdSize
  replaces : ∀ t r, Calling s t r → r.replaceDiedPid ≠ 0 → t.getProcDesc r.replaceDiedPid ≠ none
  found : ∀ p s', Step s (.child p) s' → ∃ c row, s'.child p = some c ∧ c.running = true ∧
    c.table.getProcDesc p = some row ∧ row < c.table.procDescCnt ∧ c.table.getLogStream p ≠ none

/-! ## The number of rows -/

/-- One of the rows in use has the pid. -/
def Table.Knows (t : Table) (pid : Nat) : Prop := ∃ j < t.procDescCnt, (t.ppd j).pid = pid

/-- Before main has registered itself, and afterwards, worker by worker. -/
def StartsWorker (mainPid : Nat) (t : Table) (id : Nat) : Prop :=
  id < workerNum ∧ if id = 0 then t.procDescCnt = 0 else t.procDescCnt ≤ id + 1 ∧ t.Knows mainPid

def Return.Bounded (mainPid : Nat) (t : Table) : Return → Prop
  | registerWorker id _ => id < workerNum ∧ t.procDescCnt ≤ id + 1 ∧ t.Knows mainPid
  | afterWorker id => id < workerNum ∧ t.procDescCnt ≤ id + 2 ∧ t.Knows mainPid
  | scan _ => t.procDescCnt ≤ workerNum + 1
  | worker => False

/-- The rows of main's table at every statement; in a call, those at the return. -/
def Pc.Bounded (mainPid : Nat) (t : Table) : Pc → Prop
  | fork id | install id _ | registerMain id _ => StartsWorker mainPid t id
  | registerWorker id _ => id < workerNum ∧ t.procDescCnt ≤ id + 1 ∧ t.Knows mainPid
  | forkWatchdog | scan _ => t.procDescCnt ≤ workerNum + 1
  | refork i | replace i _ => t.procDescCnt ≤ workerNum + 1 ∧ i < t.procDescCnt ∧ (t.ppd i).pid ≠ 0
  | write field row r next => row < t.procDescCnt ∧ next.Bounded mainPid (t.finish row r field)
  | create _ _ next => next.Bounded mainPid t
  | exited => True
  | replaceSelf _ | worker => False

/-- Every process of the table has a log. -/
def Table.Logged (t : Table) : Prop := ∀ j, (t.ppd j).pid ≠ 0 → (t.ppd j).flog ≠ none

/-- The row that main is filling. -/
def Pc.filling : Pc → Option Nat
  | write _ row _ _ | create row _ _ => some row
  | _ => none

/-- A child has a free row for itself, or knows the process it replaces. -/
structure Child.Ready (p : Nat) (c : Child) : Prop where
  process : p ≠ 0
  pid : c.registration.pid = p
  unused : c.table.Unused
  space : c.registration.replaceDiedPid = 0 → c.table.procDescCnt < ppdSize
  known : c.registration.replaceDiedPid ≠ 0 → c.table.getProcDesc c.registration.replaceDiedPid ≠ none
  logged : c.table.Logged

structure Bounded (s : State) : Prop where
  process : s.mainPid ≠ 0
  unused : s.table.Unused
  pc : s.pc.Bounded s.mainPid s.table
  logged : ∀ j, (s.table.ppd j).pid ≠ 0 → s.pc.filling ≠ some j → (s.table.ppd j).flog ≠ none
  child : ∀ p c, s.child p = some c → c.running = false → c.Ready p

variable {s s' : State} {t t' : Table} {mainPid pid row p : Nat} {r : Registration} {field : Field} {c : Child}

namespace Table

theorem Knows.found (known : t.Knows pid) (few : t.procDescCnt ≤ ppdSize) : t.getProcDesc pid ≠ none := by
  obtain ⟨j, inside, holds⟩ := known
  exact fun unknown => getProcDesc_eq_none.mp unknown j (Nat.lt_of_lt_of_le inside few) holds

theorem Knows.similar (known : t.Knows pid) (similar : Similar t t') : t'.Knows pid := by
  obtain ⟨j, inside, holds⟩ := known
  exact ⟨j, by rwa [similar.cnt], by rwa [similar.pid]⟩

theorem Unused.similar (unused : t.Unused) (similar : Similar t t') : t'.Unused := by
  intro j beyond
  rw [similar.cnt] at beyond
  rw [similar.pid]
  exact unused j beyond

theorem Unused.finish (unused : t.Unused) (inside : row < t.procDescCnt) (field : Field) :
    (t.finish row r field).Unused := by
  intro j beyond
  rw [finish_cnt] at beyond
  rw [finish_of_ne (Nat.ne_of_gt (Nat.lt_of_lt_of_le inside beyond))]
  exact unused j beyond

theorem Logged.register (logged : t.Logged) (registered : t.register r = some t') : t'.Logged := by
  unfold Table.register at registered
  split at registered
  · cases registered
  next row table claimed =>
    cases registered
    have rows : table.ppd = t.ppd := by
      obtain ⟨-, -, -, rfl⟩ | ⟨-, -, rfl⟩ := claim_eq_some claimed <;> rfl
    intro j process
    by_cases here : j = row
    · rw [here, openLog_flog]
      exact nofun
    · rw [openLog_of_ne here] at process ⊢
      simp only [write_of_ne here, rows] at process ⊢
      exact logged j process

/-- A process that finds its row finds its log. -/
theorem Logged.stream (logged : t.Logged) (process : p ≠ 0) (found : t.getProcDesc p = some row) :
    t.getLogStream p ≠ none := by
  rw [getLogStream, found]
  exact logged row (by rw [(getProcDesc_eq_some found).2]; exact process)

end Table

theorem Return.Bounded.similar {next : Return} (bounded : next.Bounded mainPid t) (similar : Table.Similar t t') :
    next.Bounded mainPid t' := by
  cases next with
  | registerWorker id p | afterWorker id =>
    obtain ⟨inside, few, known⟩ := bounded
    exact ⟨inside, by rwa [similar.cnt], known.similar similar⟩
  | scan i =>
    rw [Return.Bounded, similar.cnt]
    exact bounded
  | worker => exact bounded

theorem StartsWorker.similar {id : Nat} (starts : StartsWorker mainPid t id) (similar : Table.Similar t t') :
    StartsWorker mainPid t' id := by
  obtain ⟨inside, rows⟩ := starts
  refine ⟨inside, ?_⟩
  rw [similar.cnt]
  split_ifs at rows ⊢
  · exact rows
  · exact ⟨rows.1, rows.2.similar similar⟩

theorem StartsWorker.few {id : Nat} (starts : StartsWorker mainPid t id) : t.procDescCnt ≤ workerNum := by
  obtain ⟨inside, rows⟩ := starts
  split_ifs at rows
  · rw [rows]
    exact Nat.zero_le _
  · have few := rows.1
    omega

/-- It does not matter who has died. -/
theorem Pc.Bounded.similar {pc : Pc} (bounded : pc.Bounded mainPid t) (similar : Table.Similar t t') :
    pc.Bounded mainPid t' := by
  cases pc with
  | fork id | install id p | registerMain id p => exact StartsWorker.similar bounded similar
  | registerWorker id p =>
    obtain ⟨inside, few, known⟩ := bounded
    exact ⟨inside, by rwa [similar.cnt], known.similar similar⟩
  | forkWatchdog | scan i =>
    rw [Pc.Bounded, similar.cnt]
    exact bounded
  | refork i | replace i p =>
    rw [Pc.Bounded, similar.cnt, similar.pid]
    exact bounded
  | write field row r next =>
    obtain ⟨inside, returns⟩ := bounded
    exact ⟨by rwa [similar.cnt], returns.similar similar.finish⟩
  | create row r next => exact Return.Bounded.similar bounded similar
  | exited | replaceSelf i | worker => exact bounded

theorem Return.Bounded.pc {next : Return} (bounded : next.Bounded mainPid t) : next.pc.Bounded mainPid t := by
  cases next with
  | registerWorker id p => exact bounded
  | afterWorker id =>
    obtain ⟨inside, few, known⟩ := bounded
    rw [Return.pc]
    split_ifs with more
    · exact ⟨more, by rw [if_neg (Nat.succ_ne_zero id)]; exact ⟨few, known⟩⟩
    · exact Nat.le_trans few (by omega)
  | scan i => exact bounded
  | worker => exact bounded

/-! ## Steps of main -/

namespace Bounded

theorem call (bounded : Bounded s) {next : Return} (idle : s.pc.filling = none)
    (returns : s.table.claim r = none → r.replaceDiedPid = 0 ∧ next.Bounded s.mainPid s.table)
    (fills : ∀ row t', s.table.claim r = some (row, t') → next.Bounded s.mainPid (t'.finish row r .pid)) :
    Bounded (s.call r next) := by
  obtain ⟨process, unused, -, logged, child⟩ := bounded
  have logged : s.table.Logged := fun j present => logged j present (by rw [idle]; nofun)
  unfold State.call
  split
  next row table claimed =>
    obtain ⟨stillUnused, inside⟩ := unused.claim claimed
    refine ⟨process, stillUnused, ⟨inside, fills row table claimed⟩, fun j present _ => ?_, child⟩
    obtain ⟨-, -, -, rfl⟩ | ⟨-, -, rfl⟩ := Table.claim_eq_some claimed <;> exact logged j present
  next returned =>
    obtain ⟨new, bounded⟩ := returns returned
    refine ⟨process, unused, ?_, fun j present _ => logged j present, child⟩
    rw [if_pos new]
    exact bounded.pc

/-- Main registers itself before its first worker, and finds itself afterwards. -/
theorem registersMain (bounded : Bounded s) {id p : Nat} (at' : s.pc = .registerMain id p) :
    Bounded (s.call ⟨s.mainPid, .main, id, 0⟩ (.registerWorker id p)) := by
  have pc := bounded.pc
  rw [at'] at pc
  have few := StartsWorker.few pc
  obtain ⟨inside, rows⟩ := pc
  refine bounded.call (by rw [at']; rfl) (fun returned => ⟨rfl, inside, ?_⟩) fun row t' claimed => ⟨inside, ?_⟩
  · obtain ⟨-, found⟩ | ⟨replaces, -⟩ := Table.claim_eq_none returned
    · obtain ⟨row, found⟩ := Option.ne_none_iff_exists'.mp found
      have used := bounded.unused.lt_of_getProcDesc bounded.process found
      refine ⟨?_, row, used, (Table.getProcDesc_eq_some found).2⟩
      split_ifs at rows with first
      · omega
      · exact rows.1
    · exact absurd rfl replaces
  · obtain ⟨-, unknown, rfl, rfl⟩ | ⟨replaces, -⟩ := Table.claim_eq_some claimed
    · have first : id = 0 := by
        by_contra later
        rw [if_neg later] at rows
        exact rows.2.found (by rw [ppdSize]; omega) unknown
      rw [if_pos first] at rows
      rw [Table.finish_cnt]
      refine ⟨by simp only; omega, s.table.procDescCnt, ?_, ?_⟩
      · rw [Table.finish_cnt]
        exact Nat.lt_succ_self _
      · rw [Table.finish_pid_self]
    · exact absurd rfl replaces

theorem registersWorker (bounded : Bounded s) {id p : Nat} (at' : s.pc = .registerWorker id p) :
    Bounded (s.call ⟨p, .worker, id, 0⟩ (.afterWorker id)) := by
  have pc := bounded.pc
  rw [at'] at pc
  obtain ⟨inside, few, known⟩ := pc
  refine bounded.call (by rw [at']; rfl) (fun _ => ⟨rfl, inside, Nat.le_succ_of_le few, known⟩)
    fun row t' claimed => ⟨inside, ?_⟩
  obtain ⟨-, -, rfl, rfl⟩ | ⟨replaces, -⟩ := Table.claim_eq_some claimed
  · obtain ⟨j, used, own⟩ := known
    refine ⟨Nat.succ_le_succ few, j, Nat.lt_succ_of_lt used, ?_⟩
    rw [Table.finish_of_ne (Nat.ne_of_lt used)]
    exact own
  · exact absurd rfl replaces

theorem replaces (bounded : Bounded s) {i p : Nat} (at' : s.pc = .replace i p) :
    Bounded (s.call ⟨p, .worker, (s.table.ppd i).id, (s.table.ppd i).pid⟩ (.scan (i + 1))) := by
  have pc := bounded.pc
  rw [at'] at pc
  obtain ⟨few, used, present⟩ := pc
  have known : s.table.Knows (s.table.ppd i).pid := ⟨i, used, rfl⟩
  refine bounded.call (by rw [at']; rfl) (fun returned => ?_) fun row t' claimed => ?_
  · obtain ⟨new, -⟩ | ⟨-, unknown⟩ := Table.claim_eq_none returned
    · exact absurd new present
    · exact absurd unknown (known.found (Nat.le_succ_of_le few))
  · obtain ⟨new, -⟩ | ⟨-, -, rfl⟩ := Table.claim_eq_some claimed
    · exact absurd new present
    · rw [Return.Bounded, Table.finish_cnt]
      exact few

theorem writes (bounded : Bounded s) {next : Return} (at' : s.pc = .write field row r next) {owner : Nat → Nat} :
    Bounded { s with
      table := s.table.write row r field
      owner
      pc := match field.next with
        | some field => .write field row r next
        | none => .create row r next } := by
  obtain ⟨process, unused, pc, logged, child⟩ := bounded
  rw [at'] at pc
  obtain ⟨inside, returns⟩ := pc
  rw [at'] at logged
  refine ⟨process, unused.write inside field, ?_, fun j present other => ?_, child⟩
  · cases field with
    | pid | ptype | id => exact ⟨inside, returns⟩
    | died => exact returns
  · have there : j ≠ row := by
      rintro rfl
      cases field <;> exact other rfl
    rw [Table.write_of_ne there] at present ⊢
    exact logged j present fun same => there (Option.some.inj same).symm

theorem creates (bounded : Bounded s) {next : Return} (at' : s.pc = .create row r next) :
    Bounded { s.createFile r with table := s.table.openLog row r, pc := next.pc } := by
  obtain ⟨process, unused, pc, logged, child⟩ := bounded
  rw [at'] at pc logged
  have similar := Table.similar_openLog s.table row r
  refine ⟨process, unused.similar similar, (Return.Bounded.similar pc similar).pc, fun j present _ => ?_, child⟩
  by_cases here : j = row
  · rw [here, Table.openLog_flog]
    exact nofun
  · rw [Table.openLog_of_ne here] at present ⊢
    exact logged j present fun same => here (Option.some.inj same).symm

/-- Main is at a statement outside `register_new_process`. -/
theorem tableLogged (bounded : Bounded s) (idle : s.pc.filling = none) : s.table.Logged :=
  fun j present => bounded.logged j present (by rw [idle]; nofun)

/-- A statement of main that leaves its table alone. -/
theorem goto (bounded : Bounded s) (idle : s.pc.filling = none) {pc : Pc} {installed started : Bool}
    (fits : pc.Bounded s.mainPid s.table) : Bounded { s with pc, installed, started } :=
  ⟨bounded.process, bounded.unused, fits, fun j present _ => bounded.tableLogged idle j present, bounded.child⟩

/-- A fork outside `register_new_process`: the child begins with a copy of the table. -/
theorem spawn (bounded : Bounded s) (idle : s.pc.filling = none) (process : r.pid ≠ 0)
    (space : r.replaceDiedPid = 0 → s.table.procDescCnt < ppdSize)
    (known : r.replaceDiedPid ≠ 0 → s.table.getProcDesc r.replaceDiedPid ≠ none) : Bounded (s.spawn r) := by
  refine ⟨bounded.process, bounded.unused, bounded.pc, bounded.logged, fun p c present new => ?_⟩
  change Function.update s.child r.pid (some ⟨s.table, r, false⟩) p = some c at present
  by_cases own : p = r.pid
  · subst own
    rw [Function.update_self] at present
    cases present
    exact ⟨process, rfl, bounded.unused, space, known, bounded.tableLogged idle⟩
  · rw [Function.update_of_ne own] at present
    exact bounded.child p c present new

theorem mainStep (bounded : Bounded s) {fork : Option Nat} (forked : fork = none → s.pc.forking = false)
    (effect : MainEffect s fork s') : Bounded s' := by
  have pc := bounded.pc
  cases effect with
  | forkFails at' | watchdogFails at' | reforkFails at' =>
    rw [at'] at forked
    exact absurd (forked rfl) nofun
  | @forks id p at' free =>
    have idle : s.pc.filling = none := by rw [at']; rfl
    rw [at'] at pc
    refine (bounded.spawn (r := ⟨p, .worker, id, 0⟩) idle free.1 (fun _ => ?_) (absurd rfl)).goto idle pc
    exact Nat.lt_of_le_of_lt (StartsWorker.few pc) (by decide)
  | installs at' =>
    rw [at'] at pc
    exact bounded.goto (by rw [at']; rfl) pc
  | registersMain at' => exact bounded.registersMain at'
  | registersWorker at' => exact bounded.registersWorker at'
  | @forksWatchdog p at' free =>
    have idle : s.pc.filling = none := by rw [at']; rfl
    rw [at'] at pc
    refine (bounded.spawn (r := ⟨p, .wd, workerNum, 0⟩) idle free.1 (fun _ => ?_) (absurd rfl)).goto idle pc
    exact Nat.lt_succ_of_le pc
  | finds at' inside worker present died =>
    rw [at'] at pc
    exact bounded.goto (by rw [at']; rfl) ⟨pc, inside, present⟩
  | passes at' inside other | restarts at' beyond =>
    rw [at'] at pc
    exact bounded.goto (by rw [at']; rfl) pc
  | @reforks i p at' free =>
    have idle : s.pc.filling = none := by rw [at']; rfl
    rw [at'] at pc
    have known : s.table.Knows (s.table.ppd i).pid := ⟨i, pc.2.1, rfl⟩
    refine (bounded.spawn (r := ⟨p, .worker, (s.table.ppd i).id, (s.table.ppd i).pid⟩) idle free.1
      (absurd · pc.2.2) fun _ => ?_).goto idle pc
    exact known.found (Nat.le_succ_of_le pc.1)
  | replaces at' => exact bounded.replaces at'
  | replacesSelf at' =>
    rw [at'] at pc
    exact pc.elim
  | writes at' => exact bounded.writes at'
  | creates at' => exact bounded.creates at'

end Bounded

/-! ## Steps of the children -/

section

variable {q : Nat} {c' : Child}

/-- What is not the new value of an entry was there before. -/
theorem child_of_update {f : Nat → Option Child} {v : Option Child} (after : Function.update f q v p = some c)
    (other : v ≠ some c) : f p = some c := by
  by_cases own : p = q
  · subst own
    rw [Function.update_self] at after
    exact absurd after other
  · rwa [Function.update_of_ne own] at after

theorem child_of_registered {f : Nat → Option Child} (after : Function.update f q (some c') p = some c)
    (registered : c'.running = true) (new : c.running = false) : f p = some c := by
  refine child_of_update after fun same => ?_
  cases same
  exact absurd (registered.symm.trans new) nofun

theorem child_of_unregisterStep (after : (unregisterStep s q c').child p = some c) (registered : c'.running = true)
    (new : c.running = false) : s.child p = some c := by
  unfold unregisterStep at after
  split at after
  · exact child_of_registered after registered new
  · exact after

/-- A child that has yet to register itself was there before every step but main's. -/
theorem child_of_step {a : Action} (other : ∀ fork, a ≠ .main fork) (edge : Step s a s')
    (present : s'.child p = some c) (new : c.running = false) : s.child p = some c := by
  cases step_effect edge with
  | main idle effect => exact absurd rfl (other _)
  | delivers | ends | reaps | givesUp | marks => exact present
  | exits live running => exact child_of_update present nofun
  | child was unregistered =>
    unfold childStep at present
    split at present <;> exact child_of_registered present rfl new
  | hangup was registered => exact child_of_unregisterStep present registered new
  | terminate was registered running =>
    exact child_of_unregisterStep (child_of_update present nofun) registered new

end

namespace Child.Ready

/-- The row of a child in its own copy of the table. -/
theorem claims (ready : c.Ready p) (claimed : c.table.claim c.registration = some (row, t')) : row < ppdSize := by
  obtain ⟨new, -, rfl, -⟩ | ⟨-, found, -⟩ := Table.claim_eq_some claimed
  · exact ready.space new
  · exact (Table.getProcDesc_eq_some found).1

/-- Once its row is filled a process finds a row that is in use. -/
theorem registers (ready : c.Ready p) (registered : c.table.register c.registration = some t') :
    ∃ found, t'.getProcDesc p = some found ∧ found < t'.procDescCnt := by
  unfold Table.register at registered
  split at registered
  · cases registered
  next row table claimed =>
    cases registered
    obtain ⟨unused, used⟩ := ready.unused.claim claimed
    have inside := ready.claims claimed
    let filled := (table.finish row c.registration .pid).openLog row c.registration
    have same (j : Nat) : (filled.ppd j).pid = ((table.finish row c.registration .pid).ppd j).pid :=
      (Table.openLog_row j).1
    have holds : (filled.ppd row).pid = p := by
      rw [same, Table.finish_pid_self]
      exact ready.pid
    have known : filled.getProcDesc p ≠ none := fun unknown =>
      Table.getProcDesc_eq_none.mp unknown row inside holds
    obtain ⟨found, isSome⟩ := Option.ne_none_iff_exists'.mp known
    refine ⟨found, isSome, ?_⟩
    exact ((unused.finish used .pid).similar (Table.similar_openLog ..)).lt_of_getProcDesc ready.process isSome

/-- A process that does not register itself has a row already. -/
theorem knows (ready : c.Ready p) (returned : c.table.register c.registration = none) :
    ∃ found, c.table.getProcDesc p = some found ∧ found < c.table.procDescCnt := by
  unfold Table.register at returned
  split at returned
  next unclaimed =>
    obtain ⟨-, known⟩ | ⟨replaces, unknown⟩ := Table.claim_eq_none unclaimed
    · rw [ready.pid] at known
      obtain ⟨found, isSome⟩ := Option.ne_none_iff_exists'.mp known
      exact ⟨found, isSome, ready.unused.lt_of_getProcDesc ready.process isSome⟩
    · exact absurd unknown (ready.known replaces)
  · cases returned

theorem found (ready : c.Ready p) : ∃ c' row, (childStep s p c).child p = some c' ∧ c'.running = true ∧
    c'.table.getProcDesc p = some row ∧ row < c'.table.procDescCnt ∧ c'.table.getLogStream p ≠ none := by
  unfold childStep
  split
  next table registered =>
    obtain ⟨row, found, used⟩ := ready.registers registered
    exact ⟨_, row, Function.update_self .., rfl, found, used,
      (ready.logged.register registered).stream ready.process found⟩
  next returned =>
    obtain ⟨row, found, used⟩ := ready.knows returned
    exact ⟨_, row, Function.update_self .., rfl, found, used, ready.logged.stream ready.process found⟩

end Child.Ready

/-! ## Whole runs -/

/-- No process opens a log in main's table but main. -/
theorem step_flog {a : Action} (other : ∀ fork, a ≠ .main fork) (edge : Step s a s') (j : Nat) :
    (s'.table.ppd j).flog = (s.table.ppd j).flog := by
  cases step_effect edge with
  | main idle effect => exact absurd rfl (other _)
  | delivers | ends | reaps | givesUp | exits => rfl
  | marks => exact Table.markDied_flog ..
  | child =>
    unfold childStep
    split <;> rfl
  | hangup =>
    unfold unregisterStep
    split <;> rfl
  | terminate =>
    unfold unregisterStep State.terminated
    split <;> rfl

namespace Bounded

theorem preserved (bounded : Bounded s) {a : Action} (forked : ForkSucceeds s a) (edge : Step s a s') :
    Bounded s' := by
  by_cases main : ∃ fork, a = .main fork
  · obtain ⟨fork, rfl⟩ := main
    cases step_effect edge with
    | main idle effect =>
      refine bounded.mainStep (fun failed => ?_) effect
      rw [failed] at forked
      exact forked rfl
  · have other : ∀ fork, a ≠ .main fork := fun fork same => main ⟨fork, same⟩
    obtain ⟨process, pc, -, similar⟩ := step_frame other edge
    refine ⟨by rw [process]; exact bounded.process, bounded.unused.similar similar, ?_, fun j present there => ?_,
      fun p c present new => ?_⟩
    · rw [process, pc]
      exact bounded.pc.similar similar
    · rw [step_flog other edge]
      rw [similar.pid] at present
      rw [pc] at there
      exact bounded.logged j present there
    · exact bounded.child p c (child_of_step other edge present new) new

theorem tablesSuffice (bounded : Bounded s) : TablesSuffice s := by
  have pc := bounded.pc
  refine ⟨fun t r row t' calling claimed => ?_, fun t r calling replaces => ?_, fun p s' edge => ?_⟩
  · have known : r.replaceDiedPid ≠ 0 → row < ppdSize := fun replaces => by
      obtain ⟨new, -⟩ | ⟨-, found, -⟩ := Table.claim_eq_some claimed
      · exact absurd new replaces
      · exact (Table.getProcDesc_eq_some found).1
    have appended (few : t.procDescCnt < ppdSize) : row < ppdSize := by
      obtain ⟨-, -, rfl, -⟩ | ⟨replaces, -⟩ := Table.claim_eq_some claimed
      · exact few
      · exact known replaces
    cases calling with
    | main at' =>
      rw [at'] at pc
      exact appended (Nat.lt_of_le_of_lt (StartsWorker.few pc) (by decide))
    | worker at' =>
      rw [at'] at pc
      obtain ⟨inside, few, -⟩ := pc
      exact appended (by rw [ppdSize]; omega)
    | replace at' =>
      rw [at'] at pc
      exact known pc.2.2
    | replaceSelf at' =>
      rw [at'] at pc
      exact pc.elim
    | child present new => exact (bounded.child _ _ present new).claims claimed
  · cases calling with
    | main at' | worker at' => exact absurd rfl replaces
    | @replace i p at' =>
      rw [at'] at pc
      obtain ⟨few, used, -⟩ := pc
      have known : s.table.Knows (s.table.ppd i).pid := ⟨i, used, rfl⟩
      exact known.found (Nat.le_succ_of_le few)
    | replaceSelf at' =>
      rw [at'] at pc
      exact pc.elim
    | child present new => exact (bounded.child _ _ present new).known replaces
  · cases step_effect edge with
    | child present new => exact (bounded.child _ _ present new).found

end Bounded

/-- However many workers die and are forked anew, no process ever has more rows than the
table has room for. -/
theorem process_table_suffices (mainPid : Nat) (files : Finset String) (actions : List Action) (s : State)
    (process : mainPid ≠ 0) (run : Run ForkStep (initial mainPid files) actions s) : TablesSuffice s := by
  have start : Bounded (initial mainPid files) :=
    ⟨process, fun _ _ => rfl, ⟨by decide, rfl⟩, fun _ present => absurd rfl present,
      fun _ _ present => absurd present nofun⟩
  have bounded : Bounded s := run.invariant Bounded (fun bounded edge => bounded.preserved edge.1 edge.2) start
  exact bounded.tablesSuffice

/-- The last process to be forked, the watchdog, finds exactly one row left. -/
theorem process_table_suffices_watchdog :
    ∃ s, Run ForkStep (initial 1 ∅) startUp s ∧
      (∃ c, s.child 104 = some c ∧ c.running = false ∧ c.table.procDescCnt + 1 = ppdSize) ∧ TablesSuffice s := by
  have started : (execute (fun s a => if ForkSucceeds s a then step s a else none) (initial 1 ∅) startUp).map
      (fun s => (s.child 104).map fun c => decide (c.running = false ∧ c.table.procDescCnt + 1 = ppdSize)) =
        some (some true) := by
    decide +kernel
  obtain ⟨s, result, child⟩ := Option.map_eq_some_iff.mp started
  obtain ⟨c, present, full⟩ := Option.map_eq_some_iff.mp child
  have run := (run_of_execute result).mono fun edge => Option.ite_none_right_eq_some.mp edge
  exact ⟨s, run, ⟨c, present, of_decide_eq_true full⟩, process_table_suffices 1 ∅ _ s (by decide) run⟩

end Cs544.Fuzzer
