import Mathlib

/-!
# Linked — linked lists in a heap

A heap of cells is given by the function `next` that reads the link of a cell. `Linked next p xs`
says that the links visit the cells `xs`, from the link `p` on, and end there; it says nothing about
the links of other cells, which may be stale.

`walk` is the loop that looks for a cell and remembers the one before it. With enough fuel it stops
at the first cell that meets its condition, or at the end.
-/

namespace EnocGem5.Lib

open List

universe u

variable {α : Type u} {xs : List α}

/-- From the link `p` on, the links visit the cells `xs` and end. -/
def Linked (next : α → Option α) : Option α → List α → Prop
  | p, [] => p = none
  | p, a :: as => p = some a ∧ Linked next (next a) as

section Rules

variable {next next' : α → Option α} {p : Option α} {a : α} {xs as bs cs : List α}

theorem Linked.head?_eq (h : Linked next p xs) : p = xs.head? := by
  cases xs with
  | nil => exact h
  | cons a as => exact h.1

theorem Linked.congr (h : Linked next p xs) (heq : ∀ a ∈ xs, next' a = next a) :
    Linked next' p xs := by
  induction xs generalizing p with
  | nil => exact h
  | cons a as ih =>
    refine ⟨h.1, ?_⟩
    rw [heq a mem_cons_self]
    exact ih h.2 fun b hb => heq b (mem_cons_of_mem a hb)

theorem Linked.rest (h : Linked next p (as ++ a :: bs)) : Linked next (next a) bs := by
  induction as generalizing p with
  | nil => exact h.2
  | cons b as ih => exact ih h.2

/-- The list after the cell `a` is replaced. -/
theorem Linked.relink (h : Linked next p (as ++ a :: bs)) (hfront : ∀ x ∈ as, next' x = next x)
    (hrest : Linked next' (next' a) cs) : Linked next' p (as ++ a :: cs) := by
  induction as generalizing p with
  | nil => exact ⟨h.1, hrest⟩
  | cons b as ih =>
    refine ⟨h.1, ?_⟩
    rw [hfront b mem_cons_self]
    exact ih h.2 fun x hx => hfront x (mem_cons_of_mem b hx)

end Rules

/-! ## Search -/

/-- Follows the links until a cell meets `stop`; also returns the cell before it. -/
def walk (next : α → Option α) (stop : α → Bool) : ℕ → α → Option α → Option (α × Option α)
  | 0, _, _ => none
  | _ + 1, prev, none => some (prev, none)
  | fuel + 1, prev, some curr =>
    if stop curr then some (prev, some curr) else walk next stop fuel curr (next curr)

/-- The cells that a search passes, and the list on which it ends. -/
theorem walk_linked {next : α → Option α} {fuel : ℕ} {p : Option α}
    (stop : α → Bool) (prev : α) (h : Linked next p xs) (hfuel : xs.length < fuel) :
    ∃ front last, prev :: xs.takeWhile (fun a => !stop a) = front ++ [last] ∧
      walk next stop fuel prev p = some (last, (xs.dropWhile fun a => !stop a).head?) := by
  induction xs generalizing fuel prev p with
  | nil =>
    cases fuel with
    | zero => exact absurd hfuel (Nat.not_lt_zero _)
    | succ fuel =>
      have hp : p = none := h
      exact ⟨[], prev, rfl, by rw [hp]; rfl⟩
  | cons a as ih =>
    cases fuel with
    | zero => exact absurd hfuel (Nat.not_lt_zero _)
    | succ fuel =>
      rcases h with ⟨rfl, hrest⟩
      cases hstop : stop a with
      | true =>
        refine ⟨[], prev, ?_, ?_⟩
        · simp [hstop]
        · simp [walk, hstop]
      | false =>
        rcases ih a hrest (Nat.lt_of_succ_lt_succ hfuel) with
          ⟨front, last, hfront, hwalk⟩
        refine ⟨prev :: front, last, ?_, ?_⟩
        · rw [takeWhile_cons_of_pos (by simp [hstop]), hfront]
          rfl
        · rw [dropWhile_cons_of_pos (by simp [hstop]), ← hwalk]
          simp [walk, hstop]

/-- A search for one cell of the list ends there. -/
theorem dropWhile_ne {a : α} (stop : α → Bool) (hstop : ∀ x, stop x = true ↔ a = x)
    (ha : a ∈ xs) : ∃ as, xs.dropWhile (fun x => !stop x) = a :: as := by
  have hfirst := head?_dropWhile_not (fun x => !stop x) xs
  cases hdrop : xs.dropWhile fun x => !stop x with
  | nil =>
    have hall := List.dropWhile_eq_nil_iff.1 hdrop a ha
    rw [(hstop a).2 rfl] at hall
    cases hall
  | cons b bs =>
    rw [hdrop] at hfirst
    have hb : stop b = true := by simpa using hfirst
    rw [← (hstop b).1 hb]
    exact ⟨bs, rfl⟩

end EnocGem5.Lib
