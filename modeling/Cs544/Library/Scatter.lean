import Mathlib.Algebra.GroupWithZero.Nat
import Mathlib.Data.List.Range
import Mathlib.Data.Nat.Init
import Mathlib.Logic.Function.Basic

/-! Bytes gathered from and scattered to lists of addresses, and transforms that
work block by block.

A blockwise transform reads one whole block and nothing else, so it commutes with
shifts by whole blocks and with everything that happens in other blocks.
-/

set_option autoImplicit false

namespace Cs544.Library

variable {α : Type}

def gather (mem : Nat → α) (addresses : List Nat) : List α := addresses.map mem

/-- Store values at a list of addresses, one after the other, as far as both go. -/
def scatter (mem : Nat → α) : List Nat → List α → Nat → α
  | x :: addresses, v :: values => scatter (Function.update mem x v) addresses values
  | _, _ => mem

theorem scatter_range' (mem : Nat → α) (start n : Nat) (values : List α) (enough : values.length ≤ n)
    (x : Nat) :
    scatter mem (List.range' start n) values x =
      if start ≤ x then (values[x - start]?).getD (mem x) else mem x := by
  induction values generalizing mem start n with
  | nil =>
    cases n <;> simp [scatter]
  | cons v values ih =>
    cases n with
    | zero => simp at enough
    | succ n =>
      rw [List.range'_succ, scatter, ih _ _ _ (by simpa using enough)]
      by_cases here : x = start
      · subst here
        simp
      · rw [Function.update_of_ne here]
        by_cases behind : start ≤ x
        · have shift : x - start = x - (start + 1) + 1 := by omega
          rw [if_pos behind, if_pos (by omega), shift, List.getElem?_cons_succ]
        · rw [if_neg behind, if_neg (by omega)]

/-- What is scattered over a range is gathered from it again. -/
theorem gather_scatter (mem : Nat → α) (start n : Nat) (values : List α) (all : values.length = n) :
    gather (scatter mem (List.range' start n) values) (List.range' start n) = values := by
  apply List.ext_getElem
  · simp [gather, all]
  · intro i _ inside
    have place : start + i - start = i := by omega
    simp [gather, scatter_range' mem start n values (Nat.le_of_eq all), place, inside]

theorem gather_append (mem : Nat → α) (start n k : Nat) :
    gather mem (List.range' start (n + k)) = gather mem (List.range' start n) ++
      gather mem (List.range' (start + n) k) := by
  rw [gather, gather, gather, ← List.map_append, List.range'_append_1]

theorem gather_shift (mem : Nat → α) (start n k : Nat) :
    gather (fun i => mem (start + i)) (List.range' n k) = gather mem (List.range' (start + n) k) := by
  rw [gather, gather, ← List.map_add_range' n k 1, List.map_map]
  rfl

section
variable {n : Nat} [NeZero n] {f g : (Fin n → α) → Fin n → α} {m m' : Nat → α} {i start : Nat}

/-- The transform `f` of blocks of `n` values, applied block by block. -/
def blockwise (n : Nat) [NeZero n] (f : (Fin n → α) → Fin n → α) (m : Nat → α) (i : Nat) : α :=
  f (fun j => m (n * (i / n) + j)) (Fin.ofNat n i)

theorem blockwise_congr (same : ∀ j, j / n = i / n → m j = m' j) : blockwise n f m i = blockwise n f m' i := by
  have positive : 0 < n := Nat.pos_of_neZero n
  unfold blockwise
  congr 1
  funext j
  refine same _ ?_
  rw [Nat.mul_add_div positive, Nat.div_eq_of_lt j.isLt, Nat.add_zero]

theorem blockwise_shift (whole : n ∣ start) :
    blockwise n f (fun j => m (start + j)) i = blockwise n f m (start + i) := by
  have positive : 0 < n := Nat.pos_of_neZero n
  obtain ⟨k, rfl⟩ := whole
  have number : (n * k + i) / n = k + i / n := Nat.mul_add_div positive k i
  have place : Fin.ofNat n (n * k + i) = Fin.ofNat n i := Fin.ext (Nat.mul_add_mod n k i)
  unfold blockwise
  simp only [number, place, Nat.mul_add, Nat.add_assoc]

/-- Undoing every block undoes the whole. -/
theorem blockwise_inverse (inverse : ∀ block, g (f block) = block) :
    blockwise n g (blockwise n f m) i = m i := by
  have positive : 0 < n := Nat.pos_of_neZero n
  have block : (fun j : Fin n => blockwise n f m (n * (i / n) + j)) = f fun j => m (n * (i / n) + j) := by
    funext j
    have number : (n * (i / n) + j) / n = i / n := by
      rw [Nat.mul_add_div positive, Nat.div_eq_of_lt j.isLt, Nat.add_zero]
    have place : Fin.ofNat n (n * (i / n) + j) = j :=
      Fin.ext ((Nat.mul_add_mod n (i / n) j).trans (Nat.mod_eq_of_lt j.isLt))
    simp only [blockwise, number, place]
  rw [blockwise, block, inverse]
  exact congrArg m (Nat.div_add_mod i n)

/-- The transform of a whole message. -/
def transform [Inhabited α] (n : Nat) [NeZero n] (f : (Fin n → α) → Fin n → α) (message : List α) : List α :=
  (List.range message.length).map (blockwise n f fun i => message.getD i default)

@[simp] theorem length_transform [Inhabited α] (message : List α) :
    (transform n f message).length = message.length := by simp [transform]

theorem transform_gather [Inhabited α] {mem : Nat → α} {len : Nat} (whole : n ∣ len) (inside : i < len) :
    (transform n f (gather mem (List.range' start len)))[i]? =
      some (blockwise n f (fun j => mem (start + j)) i) := by
  have positive : 0 < n := Nat.pos_of_neZero n
  have size : (gather mem (List.range' start len)).length = len := by simp [gather]
  simp only [transform, size, List.getElem?_map, List.getElem?_range inside, Option.map_some]
  congr 1
  refine blockwise_congr fun j same => ?_
  obtain ⟨k, rfl⟩ := whole
  have limit : j / n < k := by
    rw [same]
    exact Nat.div_lt_of_lt_mul inside
  have bound : j < n * k := Nat.lt_mul_of_div_lt limit positive |>.trans_eq (Nat.mul_comm _ _)
  simp [gather, List.getD_eq_getElem?_getD, bound]

end

end Cs544.Library
