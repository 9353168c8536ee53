import Xv6.Lib.Bytes

/-!
# How many places point at a thing

`tally g b` counts the places `i` with `g i = some b`.
-/

namespace Xv6.Lib

open Finset

variable {ι β : Type} [Fintype ι] [DecidableEq β] {g : ι → Option β} {b : β}

def points (x : Option β) (b : β) : Int := if x = some b then 1 else 0

def tally (g : ι → Option β) (b : β) : Int := ∑ i, points (g i) b

@[simp] theorem points_none : points (none : Option β) b = 0 := by simp [points]

theorem points_none_eq : (points (none : Option β) : β → Int) = 0 := by
  funext b
  simp

@[simp] theorem points_self : points (some b) b = 1 := by simp [points]

theorem points_some (a : β) : points (some a) b = if b = a then 1 else 0 := by
  simp [points, eq_comm]

theorem points_nonneg (x : Option β) : 0 ≤ points x b := by
  unfold points
  split <;> decide

theorem tally_nonneg : 0 ≤ tally g b := sum_nonneg fun i _ => points_nonneg (g i)

theorem tally_upd [DecidableEq ι] (g : ι → Option β) (i : ι) (x : Option β) (b : β) :
    tally (upd g i x) b = tally g b - points (g i) b + points x b := by
  have hold := add_sum_erase univ (fun j => points (g j) b) (mem_univ i)
  have hnew := add_sum_erase univ (fun j => points (upd g i x j) b) (mem_univ i)
  have hrest : ∑ j ∈ univ.erase i, points (upd g i x j) b = ∑ j ∈ univ.erase i, points (g j) b :=
    sum_congr rfl fun j hj => by rw [upd_of_ne _ _ _ (ne_of_mem_erase hj)]
  simp only [upd_self, hrest] at hnew
  unfold tally
  omega

theorem tally_eq_zero : tally g b = 0 ↔ ∀ i, g i ≠ some b := by
  unfold tally
  rw [sum_eq_zero_iff_of_nonneg fun i _ => points_nonneg (g i)]
  simp [points]

theorem tally_pos : 0 < tally g b ↔ ∃ i, g i = some b := by
  have hzero := tally_eq_zero (g := g) (b := b)
  have hnonneg := tally_nonneg (g := g) (b := b)
  constructor
  · intro h
    by_contra hnone
    have := hzero.2 fun i hi => hnone ⟨i, hi⟩
    omega
  · rintro ⟨i, hi⟩
    have : tally g b ≠ 0 := fun h => hzero.1 h i hi
    omega

end Xv6.Lib
