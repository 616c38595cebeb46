import Mathlib

/-!
# FirstPart — predicates that hold on the first part of a list

If a predicate passes from later elements of a list to earlier ones, those that satisfy it are the
first ones: a loop that stops at the first element without it has seen them all.
-/

namespace EnocGem5.Lib

open List

universe u

variable {α : Type u} {p : α → Bool} {as : List α}

theorem takeWhile_eq_filter (h : as.Pairwise fun a b => p b = true → p a = true) :
    as.takeWhile p = as.filter p := by
  induction as with
  | nil => rfl
  | cons a as ih =>
    rw [pairwise_cons] at h
    cases hp : p a with
    | true => rw [takeWhile_cons_of_pos hp, filter_cons_of_pos hp, ih h.2]
    | false =>
      have hnone : as.filter p = [] := by
        refine filter_eq_nil_iff.2 fun b hb hpb => ?_
        rw [h.1 b hb hpb] at hp
        cases hp
      have hnot : ¬ p a = true := by
        rw [hp]
        exact Bool.false_ne_true
      rw [takeWhile_cons_of_neg hnot, filter_cons_of_neg hnot, hnone]

theorem dropWhile_eq_filter_not (h : as.Pairwise fun a b => p b = true → p a = true) :
    as.dropWhile p = as.filter fun a => !p a := by
  induction as with
  | nil => rfl
  | cons a as ih =>
    rw [pairwise_cons] at h
    cases hp : p a with
    | true => rw [dropWhile_cons_of_pos hp, filter_cons_of_neg (by simp [hp]), ih h.2]
    | false =>
      -- nothing that comes later satisfies `p` either
      have hall : ∀ b ∈ a :: as, (!p b) = true := by
        intro b hb
        rcases mem_cons.1 hb with rfl | hb
        · simp [hp]
        · cases hpb : p b with
          | false => rfl
          | true =>
            rw [h.1 b hb hpb] at hp
            cases hp
      rw [dropWhile_cons_of_neg (by simp [hp]), filter_eq_self.2 hall]

end EnocGem5.Lib
