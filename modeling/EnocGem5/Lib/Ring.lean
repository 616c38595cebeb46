import Mathlib

/-!
# Ring — a circular array as a window of an unbounded queue

A circular array of `n` slots holds a queue. Here the elements of the queue are numbered from the
beginning of time, and element `p` lives in the slot `p % n`; a head or tail index of the array is
such a slot. The numbers of the elements in the array make a window of fewer than `n` numbers, and
in a window no two numbers share a slot.

`countSlots` counts the slots with a property, and `countSlots_update` is what writing a slot does
to the count.
-/

namespace EnocGem5.Lib

open Function List Nat

universe u

section Slots

variable {n p q lo : ℕ}

def nextSlot (n i : ℕ) : ℕ := if i + 1 ≥ n then 0 else i + 1

def prevSlot (n i : ℕ) : ℕ := if i = 0 then n - 1 else i - 1

theorem nextSlot_mod (hn : 0 < n) (p : ℕ) : nextSlot n (p % n) = (p + 1) % n := by
  have hlt : p % n < n := mod_lt p hn
  unfold nextSlot
  by_cases hlast : p % n + 1 ≥ n
  · rw [if_pos hlast, add_mod_eq_ite]
    by_cases hone : n = 1
    · subst hone
      simp [mod_one]
    · have h1 : 1 % n = 1 := mod_eq_of_lt (by omega)
      rw [h1, if_pos (by omega)]
      omega
  · rw [if_neg hlast, add_mod_eq_ite]
    have h1 : 1 % n = 1 := mod_eq_of_lt (by omega)
    rw [h1, if_neg (by omega)]

theorem prevSlot_mod (hn : 0 < n) (p : ℕ) : prevSlot n ((p + 1) % n) = p % n := by
  have hlt : p % n < n := mod_lt p hn
  rw [← nextSlot_mod hn p]
  unfold prevSlot nextSlot
  by_cases hlast : p % n + 1 ≥ n
  · rw [if_pos hlast, if_pos rfl]
    omega
  · rw [if_neg hlast, if_neg (succ_ne_zero _)]
    omega

theorem prevSlot_nextSlot (hp : p < n) : prevSlot n (nextSlot n p) = p := by
  have hmod : p % n = p := mod_eq_of_lt hp
  have hn : 0 < n := zero_lt_of_lt hp
  calc prevSlot n (nextSlot n p)
      = prevSlot n ((p + 1) % n) := by rw [← nextSlot_mod hn, hmod]
    _ = p := by rw [prevSlot_mod hn, hmod]

/-- The slot of an integer, for indices that may run below zero. -/
def slotOf (n : ℕ) (x : ℤ) : ℕ := (x % n).toNat

theorem natCast_slotOf (hn : 0 < n) (x : ℤ) : (slotOf n x : ℤ) = x % n :=
  Int.toNat_of_nonneg (Int.emod_nonneg x (by omega))

theorem slotOf_lt (hn : 0 < n) (x : ℤ) : slotOf n x < n := by
  have hlt : x % (n : ℤ) < n := Int.emod_lt_of_pos x (by omega)
  have hcast := natCast_slotOf hn x
  omega

theorem slotOf_natCast (hp : p < n) : slotOf n (p : ℤ) = p := by
  unfold slotOf
  rw [← Int.natCast_mod, mod_eq_of_lt hp, Int.toNat_natCast]

theorem slotOf_succ (hn : 0 < n) (x : ℤ) : slotOf n (x + 1) = (slotOf n x + 1) % n := by
  have hcast : ((slotOf n (x + 1) : ℕ) : ℤ) = (((slotOf n x + 1) % n : ℕ) : ℤ) := by
    calc ((slotOf n (x + 1) : ℕ) : ℤ)
        = (x + 1) % n := natCast_slotOf hn (x + 1)
      _ = (x % n + 1) % n := (Int.emod_add_emod x n 1).symm
      _ = ((slotOf n x : ℤ) + 1) % n := by rw [natCast_slotOf hn x]
      _ = (((slotOf n x + 1) % n : ℕ) : ℤ) := by rw [Int.natCast_mod, Int.natCast_succ]
  exact Int.ofNat_inj.1 hcast

theorem nextSlot_slotOf (hn : 0 < n) (x : ℤ) : nextSlot n (slotOf n x) = slotOf n (x + 1) := by
  rw [slotOf_succ hn, ← nextSlot_mod hn, mod_eq_of_lt (slotOf_lt hn x)]

theorem prevSlot_slotOf (hn : 0 < n) (x : ℤ) : prevSlot n (slotOf n x) = slotOf n (x - 1) := by
  have hx : slotOf n x = (slotOf n (x - 1) + 1) % n := by
    rw [← slotOf_succ hn, sub_add_cancel]
  rw [hx, prevSlot_mod hn, mod_eq_of_lt (slotOf_lt hn (x - 1))]

/-- In a window no two numbers share a slot. -/
theorem eq_of_slot_eq (hp : lo ≤ p) (hp' : p < lo + n) (hq : lo ≤ q) (hq' : q < lo + n)
    (h : p % n = q % n) : p = q := by
  exact mod_injOn_Ico lo n (by simp [hp, hp']) (by simp [hq, hq']) h

/-- The distance of two slots around the array. -/
theorem slot_sub_slot (hle : p ≤ q) (hlt : q < p + n) :
    (((q % n : ℕ) : ℤ) - ((p % n : ℕ) : ℤ)) % (n : ℤ) = (q : ℤ) - p := by
  rw [Int.natCast_mod, Int.natCast_mod, ← Int.sub_emod]
  exact Int.emod_eq_of_lt (by omega) (by omega)

variable {α : Type u} {f : ℕ → α} {a : α}

theorem update_slot_self : update f (p % n) a (p % n) = a :=
  update_self ..

theorem update_slot_of_ne (hp : lo ≤ p) (hp' : p < lo + n) (hq : lo ≤ q) (hq' : q < lo + n)
    (hne : q ≠ p) : update f (p % n) a (q % n) = f (q % n) :=
  update_of_ne (fun h => hne (eq_of_slot_eq hq hq' hp hp' h)) ..

end Slots

/-! ## Counting slots -/

variable {α : Type u} {n i : ℕ} {P : α → Bool} {f : ℕ → α} {a : α}

def countSlots (n : ℕ) (P : α → Bool) (f : ℕ → α) : ℕ := (List.range n).countP fun i => P (f i)

theorem countSlots_update (hi : i < n) :
    countSlots n P (update f i a) + (P (f i)).toNat = countSlots n P f + (P a).toNat := by
  have hmem : i ∈ range n := mem_range.2 hi
  have hperm := perm_cons_erase hmem
  have hrest : ((range n).erase i).countP (fun j => P (update f i a j))
      = ((range n).erase i).countP fun j => P (f j) := by
    apply countP_congr
    intro j hj
    rw [update_of_ne ((nodup_range.mem_erase_iff.1 hj).1)]
  unfold countSlots
  rw [hperm.countP_eq, hperm.countP_eq, countP_cons, countP_cons, hrest, update_self]
  cases P a <;> cases P (f i) <;> simp [Bool.toNat]

/-- A slot that is written without changing the property leaves the count. -/
theorem countSlots_update_same (hi : i < n) (h : P a = P (f i)) :
    countSlots n P (update f i a) = countSlots n P f := by
  have := countSlots_update (P := P) (f := f) (a := a) hi
  rw [h] at this
  omega

theorem countSlots_eq_zero : countSlots n P f = 0 ↔ ∀ i < n, P (f i) = false := by
  simp [countSlots, countP_eq_zero]

end EnocGem5.Lib
