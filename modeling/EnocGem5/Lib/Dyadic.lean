import Mathlib

/-!
# Dyadic — counting in a binary tree over the natural numbers

The numbers are the leaves of an infinite binary tree: the block `j` of level `i` has the numbers
`k` with `k / 2 ^ i = j`, and its two halves are the blocks `2 * j` and `2 * j + 1` of the level
below.

`block S i j` counts the members of a finite set in a block, and `beyond S i j` those in the blocks
to the right of it. `block_succ` and `beyond_eq` are the two recurrences along the path from a leaf
to the root: the first is how a tree of partial sums is kept, the second how the members greater
than a leaf are counted in it.
-/

namespace EnocGem5.Lib

open Finset

section Halves

variable (k i : ℕ)

theorem div_two_pow_succ : k / 2 ^ (i + 1) = k / 2 ^ i / 2 := by
  rw [pow_succ, Nat.div_div_eq_div_mul]

/-- The number before `k` is in another block only if `k` starts one. -/
theorem pred_div_two_pow (hk : k % 2 ^ i ≠ 0) : (k - 1) / 2 ^ i = k / 2 ^ i := by
  obtain ⟨k, rfl⟩ := Nat.exists_eq_add_one_of_ne_zero (show k ≠ 0 by rintro rfl; simp at hk)
  exact (Nat.succ_div_of_not_dvd fun h => hk (Nat.mod_eq_zero_of_dvd h)).symm

theorem pred_div_two_pow_of_dvd (hk : k % 2 ^ i = 0) (hpos : 0 < k) :
    (k - 1) / 2 ^ i + 1 = k / 2 ^ i := by
  obtain ⟨k, rfl⟩ := Nat.exists_eq_add_one_of_ne_zero hpos.ne'
  exact (Nat.succ_div_of_dvd (Nat.dvd_of_mod_eq_zero hk)).symm

end Halves

variable {S T : Finset ℕ} {n i j k : ℕ}

def block (S : Finset ℕ) (i j : ℕ) : ℕ := (S.filter fun k => k / 2 ^ i = j).card

def beyond (S : Finset ℕ) (i j : ℕ) : ℕ := (S.filter fun k => j < k / 2 ^ i).card

theorem block_congr (h : ∀ k, k / 2 ^ i = j → (k ∈ S ↔ k ∈ T)) : block S i j = block T i j := by
  unfold block
  congr 1
  ext k
  simp only [mem_filter]
  exact and_congr_left (h k)

theorem beyond_congr (h : ∀ k, j < k / 2 ^ i → (k ∈ S ↔ k ∈ T)) : beyond S i j = beyond T i j := by
  unfold beyond
  congr 1
  ext k
  simp only [mem_filter]
  exact and_congr_left (h k)

theorem block_eq_zero : block S i j = 0 ↔ ∀ k ∈ S, k / 2 ^ i ≠ j := by
  rw [block, card_eq_zero, filter_eq_empty_iff]

theorem beyond_eq_zero : beyond S i j = 0 ↔ ∀ k ∈ S, k / 2 ^ i ≤ j := by
  rw [beyond, card_eq_zero, filter_eq_empty_iff]
  simp only [not_lt]

theorem block_zero : block S 0 k = if k ∈ S then 1 else 0 := by
  unfold block
  simp only [pow_zero, Nat.div_one, filter_eq']
  by_cases hk : k ∈ S
  · rw [if_pos hk, if_pos hk, card_singleton]
  · rw [if_neg hk, if_neg hk, card_empty]

theorem beyond_zero : beyond S 0 k = (S.filter (k < ·)).card := by
  simp only [beyond, pow_zero, Nat.div_one]

theorem block_succ : block S (i + 1) j = block S i (2 * j) + block S i (2 * j + 1) := by
  unfold block
  rw [← card_union_of_disjoint, ← filter_or]
  · congr 1
    ext k
    simp only [mem_filter, div_two_pow_succ]
    exact and_congr_right fun _ => by omega
  · rw [disjoint_filter]
    intro k _ hleft hright
    omega

/-- What is to the right of a block is to the right of its parent, or is its sibling if it is a left
half. -/
theorem beyond_eq :
    beyond S i j = (if j % 2 = 0 then block S i (j + 1) else 0) + beyond S (i + 1) (j / 2) := by
  unfold beyond block
  by_cases heven : j % 2 = 0
  · rw [if_pos heven, ← card_union_of_disjoint, ← filter_or]
    · congr 1
      ext k
      simp only [mem_filter, div_two_pow_succ]
      exact and_congr_right fun _ => by omega
    · rw [disjoint_filter]
      intro k _ hsibling hright
      rw [div_two_pow_succ] at hright
      omega
  · rw [if_neg heven, Nat.zero_add]
    congr 1
    ext k
    simp only [mem_filter, div_two_pow_succ]
    exact and_congr_right fun _ => by omega

theorem block_le : block S i j ≤ 2 ^ i := by
  have hsub : S.filter (fun k => k / 2 ^ i = j) ⊆ Finset.Ico (j * 2 ^ i) ((j + 1) * 2 ^ i) := by
    intro k hk
    obtain ⟨-, rfl⟩ := mem_filter.1 hk
    rw [mem_Ico]
    exact ⟨Nat.div_mul_le_self k _, Nat.lt_mul_of_div_lt (Nat.lt_succ_self _) (Nat.two_pow_pos i)⟩
  calc (S.filter fun k => k / 2 ^ i = j).card
      ≤ (Finset.Ico (j * 2 ^ i) ((j + 1) * 2 ^ i)).card := card_le_card hsub
    _ = 2 ^ i := by rw [Nat.card_Ico, Nat.add_mul, Nat.one_mul, Nat.add_sub_cancel_left]

/-- No member is in the block that a number past all members starts. -/
theorem block_eq_zero_of_lt (h : ∀ k ∈ S, k < n) (hn : n ≤ j * 2 ^ i) : block S i j = 0 := by
  rw [block_eq_zero]
  intro k hk
  have hlt : k / 2 ^ i < j :=
    Nat.div_lt_of_lt_mul (by rw [Nat.mul_comm]; exact lt_of_lt_of_le (h k hk) hn)
  exact hlt.ne

end EnocGem5.Lib
