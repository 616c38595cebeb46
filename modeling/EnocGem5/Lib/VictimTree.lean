import Mathlib

/-!
# VictimTree — a tournament of bits that remembers the half used last

A perfect binary tree over `2 ^ d` leaves. Each inner node has a bit for the half that was used
last, and `victim` follows the other halves down to a leaf. Using the victim (`turn`) hands every
node on its path to the other half, so the halves of a tree take turns, and `2 ^ d` turns reach all
leaves.

The second part lays such a tree out in an array of bits, the children of node `n` at `n * 2 + 1`
  and `n * 2 + 2`.
-/

namespace EnocGem5.Lib

inductive VictimTree : ℕ → Type
  | leaf : VictimTree 0
  | node {d : ℕ} (upper : Bool) (low high : VictimTree d) : VictimTree (d + 1)

namespace VictimTree

variable {d k w : ℕ}

def victim : {d : ℕ} → VictimTree d → ℕ
  | _, leaf => 0
  | _, node (d := d) upper low high => if upper then low.victim else 2 ^ d + high.victim

def touch : {d : ℕ} → ℕ → VictimTree d → VictimTree d
  | _, _, leaf => leaf
  | _, w, node (d := d) _ low high =>
    if 2 ^ d ≤ w then node true low (high.touch (w - 2 ^ d)) else node false (low.touch w) high

theorem victim_lt : ∀ {d : ℕ} (t : VictimTree d), t.victim < 2 ^ d
  | _, leaf => Nat.one_pos
  | _, node (d := d) upper low high => by
    have hlow := low.victim_lt
    have hhigh := high.victim_lt
    rw [victim, Nat.pow_succ]
    cases upper with
    | true => exact hlow.trans_le (Nat.le_mul_of_pos_right _ Nat.two_pos)
    | false =>
      simp only [Bool.false_eq_true, if_false]
      omega

/-- The half with the leaf that was used last is not the half with the victim. -/
theorem victim_touch_half (t : VictimTree d) (hd : 0 < d) (w : ℕ) :
    (t.touch w).victim < 2 ^ (d - 1) ↔ 2 ^ (d - 1) ≤ w := by
  match t with
  | node upper low high =>
    rw [touch, Nat.add_sub_cancel]
    split
    · rename_i hw
      exact iff_of_true (victim_lt low) hw
    · rename_i hw
      refine iff_of_false (Nat.not_lt.2 ?_) hw
      exact Nat.le_add_right _ _

/-- The victim is used. -/
def turn (t : VictimTree d) : VictimTree d := t.touch t.victim

theorem turn_upper (low high : VictimTree d) :
    (node true low high).turn = node false low.turn high :=
  if_neg (Nat.not_le.2 low.victim_lt)

theorem turn_lower (low high : VictimTree d) :
    (node false low high).turn = node true low high.turn := by
  change touch (2 ^ d + high.victim) (node false low high) = _
  rw [touch, if_pos (Nat.le_add_right _ _), Nat.add_sub_cancel_left]
  rfl

def victims : {d : ℕ} → VictimTree d → ℕ → List ℕ
  | _, _, 0 => []
  | _, t, k + 1 => t.victim :: t.turn.victims k

theorem length_victims : ∀ (k : ℕ) (t : VictimTree d), (t.victims k).length = k
  | 0, _ => rfl
  | k + 1, t => congrArg (· + 1) (length_victims k t.turn)

theorem victims_lt : ∀ (k : ℕ) (t : VictimTree d), ∀ v ∈ t.victims k, v < 2 ^ d
  | k + 1, t, v, hv => by
    rcases List.mem_cons.1 hv with rfl | hv
    · exact t.victim_lt
    · exact victims_lt k t.turn v hv

/-- The halves take turns. -/
theorem victims_node_perm : ∀ (k : ℕ) (upper : Bool) (low high : VictimTree d),
    ((node upper low high).victims (2 * k)).Perm (low.victims k ++ (high.victims k).map (2 ^ d + ·))
  | 0, _, _, _ => List.Perm.refl _
  | k + 1, true, low, high => by
    have hrest := victims_node_perm k true low.turn high.turn
    have hturns : (node true low high).victims (2 * (k + 1))
        = low.victim :: (2 ^ d + high.victim) :: (node true low.turn high.turn).victims
        (2 * k) := by
      rw [show 2 * (k + 1) = 2 * k + 1 + 1 by ring, victims, turn_upper, victims, turn_lower]
      rfl
    rw [hturns]
    exact ((hrest.cons _).trans List.perm_middle.symm).cons _
  | k + 1, false, low, high => by
    have hrest := victims_node_perm k false low.turn high.turn
    have hturns : (node false low high).victims (2 * (k + 1))
        = (2 ^ d + high.victim) :: low.victim :: (node false low.turn high.turn).victims
        (2 * k) := by
      rw [show 2 * (k + 1) = 2 * k + 1 + 1 by ring, victims, turn_lower, victims, turn_upper]
      rfl
    rw [hturns]
    exact (List.Perm.swap _ _ _).trans (((hrest.cons _).trans List.perm_middle.symm).cons _)

/-- As many turns as there are leaves use each leaf once. -/
theorem victims_nodup : ∀ {d : ℕ} (t : VictimTree d), (t.victims (2 ^ d)).Nodup
  | _, leaf => List.nodup_singleton _
  | _, node (d := d) upper low high => by
    rw [Nat.pow_succ, Nat.mul_comm, (victims_node_perm _ upper low high).nodup_iff,
      List.nodup_append]
    refine ⟨low.victims_nodup, high.victims_nodup.map (add_right_injective _), ?_⟩
    rintro v hlow v' hhigh rfl
    obtain ⟨_, -, heq⟩ := List.mem_map.1 hhigh
    have := victims_lt _ low v hlow
    omega

/-! ## Trees in an array -/

/-- Node `m` is in the subtree of node `n`. -/
inductive InSubtree (n : ℕ) : ℕ → Prop
  | root : InSubtree n n
  | low {m : ℕ} : InSubtree n m → InSubtree n (m * 2 + 1)
  | high {m : ℕ} : InSubtree n m → InSubtree n (m * 2 + 2)

variable {n m i j : ℕ}

theorem InSubtree.le (h : InSubtree n m) : n ≤ m := by
  induction h with
  | root => exact le_rfl
  | low _ ih => omega
  | high _ ih => omega

theorem InSubtree.trans (hij : InSubtree i j) (h : InSubtree j m) : InSubtree i m := by
  induction h with
  | root => exact hij
  | low _ ih => exact ih.low
  | high _ ih => exact ih.high

/-- The parent of a node below the root of a subtree is in it. -/
theorem InSubtree.parent {p : ℕ} (h : InSubtree n m) (hne : m ≠ n)
    (hp : m = p * 2 + 1 ∨ m = p * 2 + 2) : InSubtree n p := by
  cases h with
  | root => exact absurd rfl hne
  | @low k h =>
    have hk : p = k := by omega
    exact hk ▸ h
  | @high k h =>
    have hk : p = k := by omega
    exact hk ▸ h

theorem InSubtree.comparable (hi : InSubtree i m) (hj : InSubtree j m) :
    InSubtree i j ∨ InSubtree j i := by
  induction hi with
  | root => exact .inr hj
  | @low k h ih =>
    by_cases heq : k * 2 + 1 = j
    · exact .inl (heq ▸ h.low)
    · exact ih (hj.parent heq (.inl rfl))
  | @high k h ih =>
    by_cases heq : k * 2 + 2 = j
    · exact .inl (heq ▸ h.high)
    · exact ih (hj.parent heq (.inr rfl))

theorem InSubtree.not_both (hlow : InSubtree (n * 2 + 1) m) : ¬ InSubtree (n * 2 + 2) m := by
  intro hhigh
  rcases hlow.comparable hhigh with h | h
  · have := (h.parent (by omega) (.inr rfl)).le
    omega
  · have := h.le
    omega

/-- The tree of depth `d` at node `n`. -/
def read (bits : ℕ → Bool) : (d n : ℕ) → VictimTree d
  | 0, _ => leaf
  | d + 1, n => node (bits n) (read bits d (n * 2 + 1)) (read bits d (n * 2 + 2))

theorem read_congr {bits bits' : ℕ → Bool} : ∀ {d n : ℕ}, (∀ m, InSubtree n m → bits m = bits' m) →
    read bits d n = read bits' d n
  | 0, _, _ => rfl
  | d + 1, n, h => by
    have hlow := read_congr (d := d) fun m hm => h m (InSubtree.root.low.trans hm)
    have hhigh := read_congr (d := d) fun m hm => h m (InSubtree.root.high.trans hm)
    rw [read, read, h n .root, hlow, hhigh]

end VictimTree
end EnocGem5.Lib
