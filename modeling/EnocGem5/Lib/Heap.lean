import Mathlib

/-!
# Heap — arrays in heap order

The children of position `i` of an array are the positions `2 * i + 1` and `2 * i + 2`. An array is
a heap if no child has a smaller key than its parent, so that the front has the least key of all.
`HeapOps` states what the two operations of a library of heaps guarantee: `push` restores the order
after an element was appended, `pop` moves the front to the back. Nothing is said about arrays that
are not heaps, nor about the order of elements with equal keys.
-/

namespace EnocGem5.Lib

open List Option

universe u v

variable {α : Type u} {κ : Type v} [LinearOrder κ]

def IsHeap (key : α → κ) (xs : List α) : Prop :=
  ∀ i x y, xs[(i - 1) / 2]? = some x → xs[i]? = some y → key x ≤ key y

section Order

variable {key key' : α → κ} {x y : α} {xs : List α}

theorem isHeap_nil (key : α → κ) : IsHeap key [] := by
  intro i x y hx
  simp at hx

theorem isHeap_of_pairwise (h : xs.Pairwise fun x y => key x ≤ key y) : IsHeap key xs := by
  intro i x y hx hy
  rcases Nat.lt_or_ge ((i - 1) / 2) i with hlt | hge
  · rcases List.getElem?_eq_some_iff.1 hx with ⟨hpi, rfl⟩
    rcases List.getElem?_eq_some_iff.1 hy with ⟨hi, rfl⟩
    exact pairwise_iff_getElem.1 h _ _ hpi hi hlt
  · -- only the front is its own parent
    have hi : i = (i - 1) / 2 := by omega
    rw [← hi, hy] at hx
    exact le_of_eq (congrArg key (some.inj hx).symm)

theorem IsHeap.front_le (h : IsHeap key (x :: xs)) (hy : y ∈ x :: xs) : key x ≤ key y := by
  rcases mem_iff_getElem?.1 hy with ⟨i, hi⟩
  -- along the path from `i` to the front the keys do not grow
  induction i using Nat.strongRecOn generalizing y with
  | ind i ih =>
    rcases Nat.eq_zero_or_pos i with rfl | hpos
    · exact le_of_eq (congrArg key (some.inj hi))
    · have hlt : (i - 1) / 2 < i := by omega
      have hlength : (i - 1) / 2 < (x :: xs).length := hlt.trans (List.getElem?_eq_some_iff.1 hi).1
      have hparent := getElem?_eq_getElem hlength
      calc
        key x ≤ key ((x :: xs)[(i - 1) / 2]) := ih _ hlt (getElem_mem hlength) hparent
        _ ≤ key y := h i _ y hparent hi

/-- Appending an element keeps the order if it is not smaller than its parent. -/
theorem IsHeap.append (h : IsHeap key xs) (hy : ∀ x ∈ xs[(xs.length - 1) / 2]?, key x ≤ key y) :
    IsHeap key (xs ++ [y]) := by
  intro i a b ha hb
  rcases Nat.lt_or_ge i xs.length with hi | hi
  · have hparent : (i - 1) / 2 < xs.length := by omega
    rw [getElem?_append_left hparent] at ha
    rw [getElem?_append_left hi] at hb
    exact h i a b ha hb
  · -- `b` is the new element, at the end
    have hlast : i < (xs ++ [y]).length := (List.getElem?_eq_some_iff.1 hb).1
    have hi : i = xs.length := by
      rw [length_append, length_singleton] at hlast
      omega
    subst hi
    have hy' : b = y := by
      rw [getElem?_concat_length] at hb
      exact (some.inj hb).symm
    subst hy'
    rcases Nat.lt_or_ge ((xs.length - 1) / 2) xs.length with hlt | hge
    · rw [getElem?_append_left hlt] at ha
      exact hy a ha
    · -- the array was empty: the new element is its own parent
      have hself : (xs.length - 1) / 2 = xs.length := by omega
      rw [hself, hb] at ha
      exact le_of_eq (congrArg key (some.inj ha).symm)

theorem IsHeap.congr (h : IsHeap key xs) (hkey : ∀ x ∈ xs, key' x = key x) : IsHeap key' xs := by
  intro i x y hx hy
  rw [hkey x (mem_of_getElem? hx), hkey y (mem_of_getElem? hy)]
  exact h i x y hx hy

end Order

/-! ## Operations -/

/-- The operations of a library of heaps, with what they guarantee for arrays that are heaps. -/
structure HeapOps (α : Type u) (κ : Type v) [LinearOrder κ] where
  push : (α → κ) → List α → List α
  pop : (α → κ) → List α → List α
  push_heap : ∀ key xs x, IsHeap key xs → IsHeap key (push key (xs ++ [x]))
  push_perm : ∀ key xs x, IsHeap key xs → (push key (xs ++ [x])).Perm (xs ++ [x])
  pop_front : ∀ key x xs, IsHeap key (x :: xs) →
    ∃ ys, pop key (x :: xs) = ys ++ [x] ∧ ys.Perm xs ∧ IsHeap key ys

theorem isHeap_insertionSort (key : α → κ) (xs : List α) :
    IsHeap key (xs.insertionSort fun x y => key x ≤ key y) := by
  exact isHeap_of_pairwise (pairwise_insertionSort _ _)

/-- Heaps that are kept sorted. -/
def HeapOps.sorting (α : Type u) (κ : Type v) [LinearOrder κ] : HeapOps α κ where
  push key xs := xs.insertionSort fun x y => key x ≤ key y
  pop key xs :=
    match xs with
    | [] => []
    | x :: xs => xs.insertionSort (fun x y => key x ≤ key y) ++ [x]
  push_heap key xs x _ := isHeap_insertionSort key (xs ++ [x])
  push_perm _ _ _ _ := perm_insertionSort _ _
  pop_front key _ xs _ := ⟨_, rfl, perm_insertionSort _ _, isHeap_insertionSort key xs⟩

end EnocGem5.Lib
