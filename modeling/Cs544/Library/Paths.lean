import Mathlib.Data.List.Basic

/-! Where paths lead.

A path is a string of names with slashes between them. It is followed from the root if it
begins with a slash, and from the working directory otherwise. A place is the list of the
names of the directories on the way to it from the root.
-/

set_option autoImplicit false

namespace Cs544.Library

variable {α : Type} [DecidableEq α] (slash dot : α)

/-- The names in a path, without the empty ones and those for the directory itself. -/
def components (path : List α) : List (List α) :=
  (path.splitOn slash).filter fun name => name ≠ [] ∧ name ≠ [dot]

/-- Follow names from a place. Two dots lead to the directory above. -/
def follow : List (List α) → List (List α) → List (List α)
  | place, [] => place
  | place, name :: rest => follow (if name = [dot, dot] then place.dropLast else place ++ [name]) rest

def resolve (cwd : List (List α)) (path : List α) : List (List α) :=
  follow dot (if path.head? = some slash then [] else cwd) (components slash dot path)

/-- The name of an entry of a directory. -/
structure ProperName (name : List α) : Prop where
  nonempty : name ≠ []
  not_dot : name ≠ [dot]
  not_dots : name ≠ [dot, dot]
  no_slash : slash ∉ name

/-- The path that starts with a dot and goes on with given names. -/
def relativePath (names : List (List α)) : List α := [slash].intercalate ([dot] :: names)

variable {slash dot} {cwd names place : List (List α)} {path : List α}

theorem follow_proper (proper : ∀ name ∈ names, ProperName slash dot name) :
    follow dot place names = place ++ names := by
  induction names generalizing place with
  | nil => rw [follow, List.append_nil]
  | cons name names ih =>
    have first := proper name List.mem_cons_self
    rw [follow, if_neg first.not_dots, ih fun other member => proper other (List.mem_cons_of_mem name member),
      List.append_assoc, List.singleton_append]

theorem components_relativePath (apart : dot ≠ slash) (proper : ∀ name ∈ names, ProperName slash dot name) :
    components slash dot (relativePath slash dot names) = names := by
  rw [components, relativePath, List.splitOn_intercalate]
  · rw [List.filter_cons_of_neg (by simp), List.filter_eq_self]
    intro name member
    simp [(proper name member).nonempty, (proper name member).not_dot]
  · intro name member
    rcases List.mem_cons.mp member with rfl | member
    · simpa using Ne.symm apart
    · exact (proper name member).no_slash
  · exact List.cons_ne_nil _ _

/-- A relative path leads below the working directory. -/
theorem resolve_relativePath (apart : dot ≠ slash) (proper : ∀ name ∈ names, ProperName slash dot name) :
    resolve slash dot cwd (relativePath slash dot names) = cwd ++ names := by
  have head : (relativePath slash dot names).head? = some dot := by
    cases names <;> simp [relativePath, List.intercalate, List.intersperse]
  rw [resolve, components_relativePath apart proper, head, if_neg (by simpa using apart), follow_proper proper]

/-- An absolute path leads to one place, so there are working directories that it does not
lead into. -/
theorem exists_not_below (absolute : path.head? = some slash) (name : List α) :
    ∃ cwd, ¬ cwd <+: resolve slash dot cwd path := by
  have fixed (cwd : List (List α)) : resolve slash dot cwd path = follow dot [] (components slash dot path) := by
    rw [resolve, if_pos absolute]
  refine ⟨List.replicate ((follow dot [] (components slash dot path)).length + 1) name, fun below => ?_⟩
  have short := below.length_le
  rw [fixed, List.length_replicate] at short
  omega

end Cs544.Library
