import Cs544.Fuzzer.Sandbox
import Cs544.Library.Paths

/-! What the paths of `gen_path` lead to.

A path to something that exists is taken from a buffer that the callback of `nftw` writes
to when a file or a directory of the wanted kind passes a random test. The buffer is
static: when nothing passes, the path is the one of an earlier call, or empty.
-/

set_option autoImplicit false

namespace Cs544.Fuzzer

open Cs544.Library

def dot : Nat := 46

/-- The last name of `SANDBOX_DIR`, which is `./sandbox`. -/
def sandboxName : List Nat := [115, 97, 110, 100, 98, 111, 120]

def sandboxDir : List Nat := relativePath slash dot [sandboxName]

example : sandboxDir = "./sandbox".toList.map Char.toNat := by decide

/-- Wherever the fuzzer is started, the path leads into its sandbox. -/
def InsideSandbox (path : List Nat) : Prop :=
  ∀ cwd, (cwd ++ [sandboxName]) <+: resolve slash dot cwd path

/-- What `nftw` reports of the tree under `SANDBOX_DIR`: paths that go down from there, to
one kind of entry each. -/
structure IsTree (tree : List (List Nat × TFlag)) : Prop where
  below : ∀ entry ∈ tree, ∃ names, (∀ name ∈ names, ProperName slash dot name) ∧
    entry.1 = relativePath slash dot (sandboxName :: names)
  one_kind : ∀ path first second, (path, first) ∈ tree → (path, second) ∈ tree → first = second
  file : ∃ path, (path, .file) ∈ tree
  directory : ∃ path, (path, .directory) ∈ tree

/-- The kind of entry that is looked for. -/
def wanted : FuzArg → Option TFlag
  | .pathFileExist => some .file
  | .pathDirExist => some .directory
  | _ => none

/-- What the comment on `gen_path` promises. -/
def Promise (env : Env) (fuzArg : FuzArg) (dst : List Nat) : Prop :=
  (∀ kind, wanted fuzArg = some kind → (dst, kind) ∈ env.tree) ∧ InsideSandbox dst

/-- The first entry of the wanted kind that passes the test. -/
def hit (fuzArg : FuzArg) : List (List Nat × TFlag) → List Nat → Option (List Nat)
  | (fpath, tflag) :: rest, r :: outcomes =>
      if r % 50 < 2 ∧ wanted fuzArg = some tflag then some fpath else hit fuzArg rest outcomes
  | _, _ => none

/-- A call of `gen_path` with the outcomes of `rand()`. -/
structure Call where
  fuzArg : FuzArg
  outcomes : List Nat
  deriving DecidableEq, Repr

/-- The kind of path that `gen_path` is called for. -/
def Call.Known (call : Call) : Prop :=
  call.fuzArg = .pathFileExist ∨ call.fuzArg = .pathDirExist ∨ call.fuzArg = .pathFileNonexist

/-- The buffer after calls one after the other. -/
def genPaths (env : Env) : List Call → List Nat → Option (List Nat)
  | [], tmp => some tmp
  | call :: rest, tmp =>
      match genPath env call.fuzArg tmp call.outcomes with
      | none => none
      | some ((_, tmp), _) => genPaths env rest tmp

/-- What was looked for in the last call that found something; `last` is that of the calls
before. -/
def lastFound (env : Env) : List Call → Option FuzArg → Option FuzArg
  | [], last => last
  | call :: rest, last =>
      lastFound env rest (if (hit call.fuzArg env.tree call.outcomes).isSome then some call.fuzArg else last)

variable {env : Env} {fuzArg : FuzArg} {tmp dst tmp' left outcomes path : List Nat} {calls : List Call}

/-- The callback stops the walk exactly at an entry that it stores. -/
theorem callbackGetPath_eq {kind : TFlag} (existing : wanted fuzArg = some kind) (fpath : List Nat) (tflag : TFlag)
    (r : Nat) :
    callbackGetPath fuzArg fpath tflag tmp (r :: outcomes) =
      some (if r % 50 < 2 ∧ wanted fuzArg = some tflag then (1, fpath) else (0, tmp), outcomes) := by
  unfold callbackGetPath
  rw [rand, draw_bind]
  by_cases passes : r % 50 < 2
  · simp only [passes, true_and]
    cases fuzArg <;> cases existing <;> cases tflag <;> rfl
  · simp only [passes, false_and]
    rfl

theorem nftw_cons {kind : TFlag} (existing : wanted fuzArg = some kind) (fpath : List Nat) (tflag : TFlag)
    (rest : List (List Nat × TFlag)) (r : Nat) :
    nftw fuzArg ((fpath, tflag) :: rest) tmp (r :: outcomes) =
      if r % 50 < 2 ∧ wanted fuzArg = some tflag then some (fpath, outcomes) else nftw fuzArg rest tmp outcomes := by
  have called : callbackGetPath fuzArg fpath tflag tmp (r :: outcomes) =
      some (if r % 50 < 2 ∧ wanted fuzArg = some tflag then (1, fpath) else (0, tmp), outcomes) :=
    callbackGetPath_eq existing fpath tflag r
  change Option.bind (callbackGetPath fuzArg fpath tflag tmp (r :: outcomes)) _ = _
  rw [called]
  split_ifs <;> rfl

theorem nftw_eq {kind : TFlag} (existing : wanted fuzArg = some kind) (tree : List (List Nat × TFlag))
    (ran : nftw fuzArg tree tmp outcomes = some (tmp', left)) :
    (hit fuzArg tree outcomes = none ∧ tmp' = tmp) ∨
      (hit fuzArg tree outcomes = some tmp' ∧ (tmp', kind) ∈ tree) := by
  induction tree generalizing outcomes with
  | nil =>
    cases ran
    exact .inl ⟨by simp [hit], rfl⟩
  | cons entry rest ih =>
    obtain ⟨fpath, tflag⟩ := entry
    match outcomes, ran with
    | r :: outcomes, ran =>
      rw [nftw_cons existing] at ran
      rw [hit]
      split_ifs at ran ⊢ with passes
      · cases ran
        refine .inr ⟨rfl, ?_⟩
        rw [existing] at passes
        rw [Option.some.inj passes.2]
        exact List.mem_cons_self
      · rcases ih ran with ⟨nothing, same⟩ | ⟨found, member⟩
        · exact .inl ⟨nothing, same⟩
        · exact .inr ⟨found, List.mem_cons_of_mem _ member⟩

/-! ## One call -/

theorem genPath_existing {kind : TFlag} (existing : wanted fuzArg = some kind)
    (ran : genPath env fuzArg tmp outcomes = some ((dst, tmp'), left)) :
    dst = tmp' ∧ nftw fuzArg env.tree tmp outcomes = some (tmp', left) := by
  have walks : fuzArg ≠ .pathFileNonexist := by
    rintro rfl
    cases existing
  rw [genPath, if_neg walks] at ran
  change Option.bind (nftw fuzArg env.tree tmp outcomes)
    (fun walked => some ((walked.1, walked.1), walked.2)) = _ at ran
  obtain ⟨⟨path, after⟩, walked, same⟩ := Option.bind_eq_some_iff.mp ran
  cases same
  exact ⟨rfl, walked⟩

/-- The slash at the beginning is only ever replaced by another one. -/
theorem ensures_genPathLoop (len rounds : Nat) (head : dst.head? = some slash) :
    Ensures (genPathLoop len rounds dst) fun path => path.head? = some slash := by
  induction rounds generalizing dst with
  | zero =>
    unfold genPathLoop
    split_ifs
    · exact fun _ _ _ fails => nomatch fails
    · exact Ensures.pure head
  | succ rounds ih =>
    unfold genPathLoop
    split_ifs
    · refine Ensures.bind fun chunkLen => Ensures.bind fun str => ih ?_
      obtain ⟨rest, rfl⟩ : ∃ rest, dst = slash :: rest := by
        cases dst with
        | nil => cases head
        | cons c rest => exact ⟨rest, by rw [Option.some.inj head]⟩
      rcases List.eq_nil_or_concat' (rest ++ str) with empty | ⟨init, last, split⟩
      · rw [List.cons_append, empty]
        rfl
      · rw [List.cons_append, split, ← List.cons_append, List.dropLast_concat]
        rfl
    · exact Ensures.pure head

/-- A path to nothing begins at the root, and the buffer is left alone. -/
theorem genPath_nonexist (ran : genPath env .pathFileNonexist tmp outcomes = some ((dst, tmp'), left)) :
    tmp' = tmp ∧ dst.head? = some slash := by
  have ensured : Ensures (genPath env .pathFileNonexist tmp) fun result =>
      result.2 = tmp ∧ result.1.head? = some slash := by
    rw [genPath, if_pos rfl]
    refine Ensures.bind fun len => Ensures.bind fun rounds => ?_
    exact Ensures.seq (ensures_genPathLoop _ _ rfl) fun path head => Ensures.pure ⟨rfl, head⟩
  exact ensured _ _ _ ran

theorem IsTree.inside (tree : IsTree env.tree) {kind : TFlag} (member : (path, kind) ∈ env.tree) :
    InsideSandbox path := by
  obtain ⟨names, proper, rfl⟩ := tree.below _ member
  have sandbox : ProperName slash dot sandboxName := ⟨by decide, by decide, by decide, by decide⟩
  intro cwd
  rw [resolve_relativePath (by decide) fun name member => ?_]
  · exact ⟨names, by rw [List.append_assoc, List.singleton_append]⟩
  · rcases List.mem_cons.mp member with rfl | member
    · exact sandbox
    · exact proper name member

theorem IsTree.nonempty (tree : IsTree env.tree) {kind : TFlag} : ([], kind) ∉ env.tree := by
  intro member
  obtain ⟨names, _, empty⟩ := tree.below _ member
  simp [relativePath, List.intercalate, List.intersperse] at empty

theorem not_insideSandbox (absolute : path.head? = some slash) : ¬ InsideSandbox path := by
  intro inside
  obtain ⟨cwd, outside⟩ : ∃ cwd, ¬ cwd <+: resolve slash dot cwd path := exists_not_below absolute sandboxName
  exact outside ((List.prefix_append cwd [sandboxName]).trans (inside cwd))

/-! ## All calls -/

/-- The buffer holds a path of the kind that was found last. -/
def Buffered (env : Env) (tmp : List Nat) : Option FuzArg → Prop
  | none => tmp = []
  | some fuzArg => ∃ kind, wanted fuzArg = some kind ∧ (tmp, kind) ∈ env.tree

theorem hit_nonexist (tree : List (List Nat × TFlag)) (outcomes : List Nat) :
    hit .pathFileNonexist tree outcomes = none := by
  induction tree generalizing outcomes with
  | nil => simp [hit]
  | cons entry rest ih =>
    cases outcomes with
    | nil => simp [hit]
    | cons r outcomes => simp [hit, wanted, ih]

theorem wanted_injective {other : FuzArg} {kind : TFlag} (first : wanted fuzArg = some kind)
    (second : wanted other = some kind) : fuzArg = other := by
  cases fuzArg <;> cases first <;> cases other <;> cases second <;> rfl

theorem Call.Known.cases {call : Call} (known : call.Known) :
    call.fuzArg = .pathFileNonexist ∨ ∃ kind, wanted call.fuzArg = some kind := by
  rcases known with file | directory | nothing
  · exact .inr ⟨.file, by rw [file]; rfl⟩
  · exact .inr ⟨.directory, by rw [directory]; rfl⟩
  · exact .inl nothing

theorem Buffered.genPath {call : Call} {last : Option FuzArg} (buffered : Buffered env tmp last) (known : call.Known)
    (ran : genPath env call.fuzArg tmp call.outcomes = some ((dst, tmp'), left)) :
    Buffered env tmp' (if (hit call.fuzArg env.tree call.outcomes).isSome then some call.fuzArg else last) := by
  rcases known.cases with nothing | ⟨kind, existing⟩
  · rw [nothing] at ran ⊢
    rw [hit_nonexist, (genPath_nonexist ran).1]
    exact buffered
  · obtain ⟨_, walked⟩ := genPath_existing existing ran
    rcases nftw_eq existing env.tree walked with ⟨missed, rfl⟩ | ⟨found, member⟩
    · rw [missed]
      exact buffered
    · rw [found]
      exact ⟨kind, existing, member⟩

theorem Buffered.genPaths {last : Option FuzArg} (known : ∀ call ∈ calls, call.Known)
    (buffered : Buffered env tmp last) (ran : genPaths env calls tmp = some tmp') :
    Buffered env tmp' (lastFound env calls last) := by
  induction calls generalizing tmp last with
  | nil =>
    cases ran
    exact buffered
  | cons call calls ih =>
    rw [Fuzzer.genPaths] at ran
    split at ran
    · cases ran
    next dst tmp left first =>
      exact ih (fun other member => known other (List.mem_cons_of_mem call member))
        (buffered.genPath (known call List.mem_cons_self) first) ran

theorem lastFound_append (calls : List Call) (call : Call) (last : Option FuzArg) :
    lastFound env (calls ++ [call]) last =
      if (hit call.fuzArg env.tree call.outcomes).isSome then some call.fuzArg else lastFound env calls last := by
  induction calls generalizing last with
  | nil => rfl
  | cons first calls ih => exact ih _

/-- After any calls before, the promise is kept exactly if what was found last, in this call
or an earlier one, is of the kind that is asked for now. It is never kept for a path to
nothing. -/
theorem gen_path_promise_iff (env : Env) (tree : IsTree env.tree) (calls : List Call)
    (known : ∀ call ∈ calls, call.Known) (call : Call) (known' : call.Known) (tmp dst tmp' left : List Nat)
    (before : genPaths env calls [] = some tmp)
    (ran : genPath env call.fuzArg tmp call.outcomes = some ((dst, tmp'), left)) :
    Promise env call.fuzArg dst ↔ lastFound env (calls ++ [call]) none = some call.fuzArg := by
  have empty : Buffered env [] none := rfl
  have earlier := empty.genPaths known before
  rw [lastFound_append]
  rcases known'.cases with nothing | ⟨kind, existing⟩
  · rw [nothing] at ran ⊢
    rw [hit_nonexist]
    refine iff_of_false (fun promise => not_insideSandbox (genPath_nonexist ran).2 promise.2) fun found => ?_
    rw [Option.isSome_none, if_neg Bool.false_ne_true] at found
    rw [found] at earlier
    obtain ⟨kind, none', _⟩ := earlier
    cases none'
  · obtain ⟨rfl, walked⟩ := genPath_existing existing ran
    have kept (member : (dst, kind) ∈ env.tree) : Promise env call.fuzArg dst := by
      refine ⟨fun found same => ?_, tree.inside member⟩
      rw [existing] at same
      rwa [← Option.some.inj same]
    rcases nftw_eq existing env.tree walked with ⟨missed, rfl⟩ | ⟨found, member⟩
    · rw [missed, Option.isSome_none, if_neg Bool.false_ne_true]
      constructor
      · rintro ⟨exists', _⟩
        have member := exists' kind existing
        cases last : lastFound env calls none with
        | none =>
          rw [last] at earlier
          cases earlier
          exact absurd member tree.nonempty
        | some fuzArg =>
          rw [last] at earlier
          obtain ⟨found, wants, here⟩ := earlier
          rw [tree.one_kind _ _ _ member here] at existing
          rw [wanted_injective existing wants]
      · intro same
        rw [same] at earlier
        obtain ⟨found, wants, member⟩ := earlier
        rw [existing] at wants
        rw [← Option.some.inj wants] at member
        exact kept member
    · rw [found, Option.isSome_some, if_pos rfl]
      exact iff_of_true (kept member) rfl

/-- The sandbox with one file in it. -/
def smallEnv : Env where
  fdPool _ := 0
  tree :=
    [(relativePath slash dot [sandboxName], .directory), (relativePath slash dot [sandboxName, [102]], .file)]

theorem smallEnv_isTree : IsTree smallEnv.tree where
  below := by
    have proper : ProperName slash dot [102] := ⟨by decide, by decide, by decide, by decide⟩
    intro entry member
    simp only [smallEnv, List.mem_cons, List.not_mem_nil, or_false] at member
    rcases member with rfl | rfl
    · exact ⟨[], by simp, rfl⟩
    · exact ⟨[[102]], by simpa using proper, rfl⟩
  one_kind := by
    have apart : relativePath slash dot [sandboxName] ≠ relativePath slash dot [sandboxName, [102]] := by decide
    intro path first second here there
    simp only [smallEnv, List.mem_cons, Prod.mk.injEq, List.not_mem_nil, or_false] at here there
    grind
  file := ⟨_, List.mem_cons_of_mem _ List.mem_cons_self⟩
  directory := ⟨_, List.mem_cons_self⟩

theorem gen_path_promise_file :
    ∃ dst tmp', genPath smallEnv .pathFileExist [] [0, 1] = some ((dst, tmp'), []) ∧
      Promise smallEnv .pathFileExist dst :=
  ⟨_, _, rfl, (gen_path_promise_iff smallEnv smallEnv_isTree [] nofun ⟨.pathFileExist, [0, 1]⟩ (.inl rfl) [] _ _ []
    rfl rfl).mpr rfl⟩

/-- When nothing passes the test in the first call, the path is empty. -/
theorem gen_path_gives_nothing :
    ¬ ∀ (env : Env), IsTree env.tree → ∀ (calls : List Call), (∀ call ∈ calls, call.Known) → ∀ (call : Call),
      call.Known → ∀ (tmp dst tmp' left : List Nat), genPaths env calls [] = some tmp →
      genPath env call.fuzArg tmp call.outcomes = some ((dst, tmp'), left) → Promise env call.fuzArg dst := by
  intro promise
  have kept := promise smallEnv smallEnv_isTree [] nofun ⟨.pathFileExist, [49, 49]⟩ (.inl rfl) [] [] [] [] rfl rfl
  exact smallEnv_isTree.nonempty (kept.1 .file rfl)

end Cs544.Fuzzer
