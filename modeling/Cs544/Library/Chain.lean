import Mathlib.Data.List.Nodup
import Mathlib.Logic.Function.Basic

/-! Singly linked lists in a memory of `next` fields.

A chain is the list of the nodes a head pointer leads to, each once. The link of a
node is the entry behind it, so a walk along the links is a walk along the list.
-/

set_option autoImplicit false

namespace Cs544.Library

variable {α : Type}

/-- Following `next` from `head` visits exactly `nodes`, in this order, and ends. -/
structure Chain (next : α → Option α) (head : Option α) (nodes : List α) : Prop where
  nodup : nodes.Nodup
  first : head = nodes[0]?
  link : ∀ i p, nodes[i]? = some p → next p = nodes[i + 1]?

namespace Chain

variable {next next' : α → Option α} {head : Option α} {nodes : List α} {p q : α} {i j : Nat}

/-- A node is in one place only. -/
theorem index_unique (chain : Chain next head nodes) (here : nodes[i]? = some p) (there : nodes[j]? = some p) :
    i = j :=
  (List.getElem?_inj (List.getElem?_eq_some_iff.mp here).1 chain.nodup).mp (here.trans there.symm)

theorem empty (next : α → Option α) : Chain next none [] := ⟨.nil, rfl, by simp⟩

theorem nodes_eq_nil (chain : Chain next none nodes) : nodes = [] := by
  have first := chain.first
  cases nodes with
  | nil => rfl
  | cons p rest => cases first

/-- Links of other nodes do not matter. -/
theorem frame (chain : Chain next head nodes) (same : ∀ p ∈ nodes, next' p = next p) :
    Chain next' head nodes where
  nodup := chain.nodup
  first := chain.first
  link i p here := by rw [same p (List.mem_of_getElem? here), chain.link i p here]

theorem next_mem (chain : Chain next head nodes) (member : p ∈ nodes) (link : next p = some q) :
    q ∈ nodes := by
  obtain ⟨i, here⟩ := List.mem_iff_getElem?.mp member
  rw [chain.link i p here] at link
  exact List.mem_of_getElem? link

theorem getLast_of_next (chain : Chain next head nodes) (member : p ∈ nodes) (link : next p = none) :
    nodes.getLast? = some p := by
  obtain ⟨i, here⟩ := List.mem_iff_getElem?.mp member
  rw [chain.link i p here] at link
  have beyond := List.getElem?_eq_none_iff.mp link
  have inside := (List.getElem?_eq_some_iff.mp here).1
  rw [List.getLast?_eq_getElem?, show nodes.length - 1 = i by omega, here]

/-! ## Adding and removing -/

theorem single (link : next p = none) : Chain next (some p) [p] := by
  refine ⟨List.nodup_singleton p, rfl, fun i q here => ?_⟩
  cases i with
  | zero =>
    cases here
    simpa using link
  | succ i => simp at here

theorem removeFirst {rest : List α} (chain : Chain next head (p :: rest)) : Chain next (next p) rest where
  nodup := (List.nodup_cons.mp chain.nodup).2
  first := chain.link 0 p rfl
  link i q here := chain.link (i + 1) q here

variable [DecidableEq α]

theorem erase_eq (chain : Chain next head nodes) (here : nodes[i]? = some p) :
    nodes.erase p = nodes.eraseIdx i := by
  obtain ⟨inside, rfl⟩ := List.getElem?_eq_some_iff.mp here
  exact chain.nodup.erase_getElem i inside

theorem push (chain : Chain next head nodes) (last : nodes.getLast? = some q) (fresh : p ∉ nodes)
    (link : next p = none) : Chain (Function.update next q (some p)) head (nodes ++ [p]) where
  nodup := by simpa [List.nodup_append] using ⟨chain.nodup, fun x member same => fresh (same ▸ member)⟩
  first := by
    have some' : 0 < nodes.length := by
      cases nodes with
      | nil => cases last
      | cons => simp
    rw [List.getElem?_append_left some', chain.first]
  link i r here := by
    have member : q ∈ nodes := List.mem_of_getLast? last
    rw [List.getLast?_eq_getElem?] at last
    have inside := (List.getElem?_eq_some_iff.mp last).1
    rcases Nat.lt_or_ge i nodes.length with old | new
    · rw [List.getElem?_append_left old] at here
      by_cases same : r = q
      · subst same
        have place := chain.index_unique here last
        rw [Function.update_self, List.getElem?_append_right (by omega), show i + 1 - nodes.length = 0 by omega]
        rfl
      · have place : i ≠ nodes.length - 1 := by
          rintro rfl
          exact same (Option.some.inj (here.symm.trans last))
        rw [Function.update_of_ne same, chain.link i r here, List.getElem?_append_left (by omega)]
    · rw [List.getElem?_append_right new] at here
      have place := (List.getElem?_eq_some_iff.mp here).1
      rw [List.length_singleton] at place
      rw [show i - nodes.length = 0 by omega] at here
      cases here
      have other : p ≠ q := fun same => fresh (same ▸ member)
      rw [Function.update_of_ne other, link, List.getElem?_eq_none]
      simp
      omega

theorem remove (chain : Chain next head nodes) (here : nodes[i]? = some q) (some' : i + 1 < nodes.length) :
    Chain (Function.update next q nodes[i + 2]?) head (nodes.eraseIdx (i + 1)) where
  nodup := chain.nodup.eraseIdx (i + 1)
  first := by
    rw [List.getElem?_eraseIdx, if_pos (by omega), chain.first]
  link j r there := by
    rw [List.getElem?_eraseIdx] at there ⊢
    by_cases front : j < i + 1
    · rw [if_pos front] at there
      by_cases same : r = q
      · subst same
        have place := chain.index_unique there here
        subst place
        rw [Function.update_self, if_neg (by omega)]
      · have place : j ≠ i := by
          rintro rfl
          exact same (Option.some.inj (there.symm.trans here))
        rw [Function.update_of_ne same, chain.link j r there, if_pos (by omega)]
    · rw [if_neg front] at there
      have other : r ≠ q := by
        rintro rfl
        have := chain.index_unique there here
        omega
      rw [Function.update_of_ne other, chain.link (j + 1) r there, if_neg (by omega)]

end Chain

end Cs544.Library
