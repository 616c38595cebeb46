import Mathlib

/-!
# Overlay — writes as partial functions

A write to a memory `ι → β` is a partial function: the values it writes, and `none` where it writes
nothing. `overlay` performs a write; performing a list of writes leaves at each place the value of
the youngest write to it.
-/

namespace EnocGem5.Lib

open List

universe u v

variable {ι : Type u} {β : Type v}

def overlay (m : ι → β) (f : ι → Option β) : ι → β := fun x => (f x).getD (m x)

/-- The value of the youngest write to a place. -/
def youngest (fs : List (ι → Option β)) (x : ι) : Option β := (fs.filterMap fun f => f x).getLast?

variable {fs gs : List (ι → Option β)} {f g : ι → Option β} {m m' : ι → β} {x : ι} {b : β}

theorem youngest_append : youngest (fs ++ gs) x = (youngest gs x).or (youngest fs x) := by
  rw [youngest, filterMap_append, getLast?_append]
  rfl

theorem youngest_singleton : youngest [f] x = f x := by
  cases h : f x <;> simp [youngest, h]

theorem youngest_eq_none : youngest fs x = none ↔ ∀ f ∈ fs, f x = none := by
  rw [youngest, getLast?_eq_none_iff, filterMap_eq_nil_iff]

theorem exists_of_youngest (h : youngest fs x = some b) : ∃ f ∈ fs, f x = some b :=
  mem_filterMap.1 (mem_of_getLast? h)

/-- A write that is followed by writes to other places only. -/
theorem youngest_of_last (h : ∀ g ∈ gs, g x = none) :
    youngest (fs ++ f :: gs) x = (f x).or (youngest fs x) := by
  rw [append_cons, youngest_append, youngest_append, youngest_singleton, youngest_eq_none.2 h,
    Option.none_or]

theorem foldl_overlay (m : ι → β) : fs.foldl overlay m x = (youngest fs x).getD (m x) := by
  induction fs using reverseRecOn with
  | nil => rfl
  | append_singleton fs f ih =>
    rw [foldl_append, youngest_append, youngest_singleton]
    change (f x).getD (fs.foldl overlay m x) = _
    cases f x with
    | none => exact ih
    | some b => rfl

theorem foldl_overlay_congr (h : ∀ x, (∀ f ∈ fs, f x = none) → m' x = m x) :
    fs.foldl overlay m' = fs.foldl overlay m := by
  funext x
  rw [foldl_overlay, foldl_overlay]
  cases hx : youngest fs x with
  | none => exact h x (youngest_eq_none.1 hx)
  | some b => rfl

/-- A write that the memory has already can be left out, if earlier writes are to other places. -/
theorem foldl_overlay_erase
    (h : ∀ x b, f x = some b → (∀ g ∈ gs, g x = none) → (∀ g ∈ fs, g x = none) ∧ m x = b) :
    (fs ++ f :: gs).foldl overlay m = (fs ++ gs).foldl overlay m := by
  funext x
  rw [foldl_overlay, foldl_overlay, append_cons, youngest_append, youngest_append, youngest_append,
    youngest_singleton]
  cases hgs : youngest gs x with
  | some b => rfl
  | none =>
    cases hf : f x with
    | none => rfl
    | some b =>
      obtain ⟨hfs, hm⟩ := h x b hf (youngest_eq_none.1 hgs)
      rw [youngest_eq_none.2 hfs]
      exact hm.symm

end EnocGem5.Lib
