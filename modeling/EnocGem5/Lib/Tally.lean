import Mathlib

/-!
# Tally — counting over a family of queues

A system that keeps items in many queues is a family `F : ι → List α`. `tally s p F` counts the
items with `p` in the queues of `s`. A step that changes a single queue changes the tally by what it
does to this queue.
-/

namespace EnocGem5.Lib

open Finset

variable {ι α : Type*} [DecidableEq ι] {s : Finset ι} {p : α → Bool} {F G : ι → List α}

/-- The number of items with `p` in the queues of `s`. -/
def tally (s : Finset ι) (p : α → Bool) (F : ι → List α) : ℕ := ∑ x ∈ s, (F x).countP p

omit [DecidableEq ι] in
theorem tally_congr (h : ∀ x ∈ s, G x = F x) : tally s p G = tally s p F :=
  sum_congr rfl fun x hx => by rw [h x hx]

theorem tally_change {a : ι} (ha : a ∈ s) (h : ∀ x ∈ s, x ≠ a → G x = F x) :
    tally s p G + (F a).countP p = tally s p F + (G a).countP p := by
  have hrest : ∑ x ∈ s.erase a, (G x).countP p = ∑ x ∈ s.erase a, (F x).countP p := by
    refine sum_congr rfl fun x hx => ?_
    rw [h x (mem_of_mem_erase hx) (ne_of_mem_erase hx)]
  have hF := add_sum_erase s (fun x => (F x).countP p) ha
  have hG := add_sum_erase s (fun x => (G x).countP p) ha
  simp only [tally]
  omega

omit [DecidableEq ι] in
theorem tally_append : tally s p (fun x => F x ++ G x) = tally s p F + tally s p G := by
  simp [tally, sum_add_distrib]

end EnocGem5.Lib
